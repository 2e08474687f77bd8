import MatchingEngine.Engine.Twins

/-! # What a command leaves alone

    A command of one symbol touches nothing of another one: its book, its live
    orders, the tokens of its orders, and what is sent about it. `Spares` says
    this of two states between commands, `Aside` of a state in the middle of a
    command. The orders that a command may touch are known when it starts: they
    are its own, the new one and those that rest in the book of its symbol.
-/

namespace MatchingEngine

open Ouch (Token Response)

namespace Engine

/-! ## Section 1: What holds of all live orders -/

/-- All orders that are recorded have the property `P`. -/
def Holds (P : OrderId → OrderInfo → Prop) (orders : Finmap (fun _ : OrderId => OrderInfo)) :
    Prop :=
  ∀ id info, orders.lookup id = some info → P id info

section holds

variable {P : OrderId → OrderInfo → Prop} {orders : Finmap (fun _ : OrderId => OrderInfo)}

theorem Holds.erase (h : Holds P orders) (id : OrderId) : Holds P (orders.erase id) := by
  intro i info hi
  by_cases hid : i = id
  · rw [hid, Finmap.lookup_erase] at hi
    cases hi
  · rw [Finmap.lookup_erase_ne hid] at hi
    exact h i info hi

theorem Holds.insert (h : Holds P orders) {id : OrderId} {info : OrderInfo} (hinfo : P id info) :
    Holds P (orders.insert id info) := by
  intro i info' hi
  by_cases hid : i = id
  · subst hid
    rw [Finmap.lookup_insert] at hi
    exact Option.some.inj hi ▸ hinfo
  · rw [Finmap.lookup_insert_of_ne _ hid] at hi
    exact h i info' hi

end holds

/-! ## Section 2: What a command of another symbol spares -/

/-- From `e₀` to `e` nothing of the symbol `S` changed, and nothing was sent about
    it. -/
structure Spares (sym : TokenKey → Symbol) (S : Symbol) (e₀ e : Engine PriorityBook) : Prop where
  book : e.bookOf S = e₀.bookOf S
  orders : ∀ {id info}, info.symbol = S → e₀.orders.lookup id = some info →
    e.orders.lookup id = some info
  live : ∀ {key}, sym key = S → e.liveTokens.lookup key = e₀.liveTokens.lookup key
  used : ∀ {key}, sym key = S → (key ∈ e.usedTokens ↔ key ∈ e₀.usedTokens)
  out : e.out.filter (fun o => o.symbol sym = S) = e₀.out.filter (fun o => o.symbol sym = S)
  /-- Every order is for the symbol of its token. -/
  filed : Holds (fun _ info => sym info.key = info.symbol) e.orders

/-- The middle of a command of the symbol `T`. `ids` are the orders it may touch. -/
structure Aside (sym : TokenKey → Symbol) (T S : Symbol) (ids : Finset OrderId)
    (e₀ e : Engine PriorityBook) : Prop extends Spares sym S e₀ e where
  symbol : e.currentSymbol = T
  touched : Holds (fun id info => id ∈ ids → info.symbol = T) e.orders

section aside

variable {sym : TokenKey → Symbol} {T S : Symbol} {ids : Finset OrderId}
  {e₀ e : Engine PriorityBook}

variable {id : OrderId} {info : OrderInfo} {client : Nat}

theorem Aside.owner (h : Aside sym T S ids e₀ e) (hid : id ∈ ids)
    (hinfo : e.orders.lookup id = some info) : info.symbol = T ∧ sym info.key = T := by
  have hsymbol := h.touched id info hinfo hid
  exact ⟨hsymbol, (h.filed id info hinfo).trans hsymbol⟩

theorem Aside.audit (h : Aside sym T S ids e₀ e) (bad : Bool) (fault : Fault) :
    Aside sym T S ids e₀ (e.audit bad fault) := by
  cases bad <;> exact { h with }

theorem Aside.setSuppress (h : Aside sym T S ids e₀ e) (flag : Bool) :
    Aside sym T S ids e₀ (e.setSuppress flag) :=
  { h with }

variable (hT : T ≠ S)

include hT

theorem Spares.respond (h : Spares sym S e₀ e) {msg : Response}
    (hmsg : sym (tokenKey client msg.token) = T) : Spares sym S e₀ (e.respond client msg) := by
  have hsymbol : (Output.response ⟨client, msg⟩).symbol sym ≠ S := by
    rw [Output.symbol, hmsg]
    exact hT
  refine { h with out := ?_ }
  rw [← h.out]
  simp [Engine.respond, push, List.filter_append, hsymbol]

theorem Aside.respond (h : Aside sym T S ids e₀ e) {msg : Response}
    (hmsg : sym (tokenKey client msg.token) = T) : Aside sym T S ids e₀ (e.respond client msg) :=
  { h with toSpares := h.toSpares.respond hT hmsg }

theorem Aside.publish (h : Aside sym T S ids e₀ e) (ev : BookEvent) :
    Aside sym T S ids e₀ (e.publish ev) := by
  have hsymbol : (Output.market ⟨e.now, e.currentSymbol, ev⟩).symbol sym ≠ S := by
    rw [Output.symbol, h.symbol]
    exact hT
  refine { h with out := ?_ }
  rw [← h.out]
  simp [Engine.publish, push, List.filter_append, hsymbol]

theorem Aside.setBook (h : Aside sym T S ids e₀ e) (b : PriorityBook) :
    Aside sym T S ids e₀ (e.setBook T b) :=
  { h with book := by rw [bookOf_setBook_ne hT.symm, h.book] }

theorem Aside.bookFor (h : Aside sym T S ids e₀ e) :
    ∃ e₁, e.bookFor T = (e₁, e.bookOf T) ∧ Aside sym T S ids e₀ e₁ := by
  obtain ⟨e₁, he, rfl | rfl⟩ := bookFor_eq e T
  · exact ⟨e₁, he, h⟩
  · exact ⟨_, he, h.setBook hT _⟩

theorem Aside.setOrder (h : Aside sym T S ids e₀ e) (hid : id ∈ ids) (hsymbol : info.symbol = T)
    (hkey : sym info.key = T) : Aside sym T S ids e₀ { e with orders := e.orders.insert id info } :=
  { h with
    orders := by
      intro i info' hS hi
      have hlookup := h.orders hS hi
      by_cases heq : i = id
      · -- an order that is touched is not for `S`
        rw [heq] at hlookup
        exact absurd ((h.owner hid hlookup).1.symm.trans hS) hT
      · show (e.orders.insert id info).lookup i = some info'
        rw [Finmap.lookup_insert_of_ne _ heq, hlookup]
    filed := h.filed.insert (hkey.trans hsymbol.symm)
    touched := h.touched.insert (fun _ => hsymbol) }

theorem Aside.drop (h : Aside sym T S ids e₀ e) (hid : id ∈ ids) {key : TokenKey}
    (hkey : sym key = T) :
    Aside sym T S ids e₀
      { e with liveTokens := e.liveTokens.erase key, orders := e.orders.erase id } :=
  { h with
    orders := by
      intro i info' hS hi
      have hlookup := h.orders hS hi
      by_cases heq : i = id
      · rw [heq] at hlookup
        exact absurd ((h.owner hid hlookup).1.symm.trans hS) hT
      · show (e.orders.erase id).lookup i = some info'
        rw [Finmap.lookup_erase_ne heq, hlookup]
    live := by
      intro k hk
      have hne : k ≠ key := by
        rintro rfl
        exact hT (hkey.symm.trans hk)
      show (e.liveTokens.erase key).lookup k = _
      rw [Finmap.lookup_erase_ne hne, h.live hk]
    filed := h.filed.erase id
    touched := h.touched.erase id }

theorem Aside.enroll (h : Aside sym T S ids e₀ e) (hnext : e.nextRef ∈ ids)
    (hsymbol : info.symbol = T) (hkey : sym info.key = T) :
    Aside sym T S ids e₀
      { e with
        nextRef := e.nextRef + 1
        usedTokens := insert info.key e.usedTokens
        liveTokens := e.liveTokens.insert info.key e.nextRef
        orders := e.orders.insert e.nextRef info } :=
  have hne : ∀ {k}, sym k = S → k ≠ info.key := by
    rintro k hk rfl
    exact hT (hkey.symm.trans hk)
  { h.setOrder hT hnext hsymbol hkey with
    live := by
      intro k hk
      show (e.liveTokens.insert info.key e.nextRef).lookup k = _
      rw [Finmap.lookup_insert_of_ne _ (hne hk), h.live hk]
    used := by
      intro k hk
      show k ∈ insert info.key e.usedTokens ↔ _
      rw [Finset.mem_insert, h.used hk]
      exact or_iff_right (hne hk) }

/-! ### Callbacks -/

theorem Aside.reduceOpen (h : Aside sym T S ids e₀ e) (hid : id ∈ ids) (qty : Qty) :
    Aside sym T S ids e₀ (e.reduceOpen id qty) := by
  unfold Engine.reduceOpen
  cases hl : e.orders.lookup id with
  | none => exact h
  | some info =>
    obtain ⟨hsymbol, hkey⟩ := h.owner hid hl
    dsimp only
    split
    · exact (h.audit _ _).drop hT hid hkey
    · exact (h.audit _ _).setOrder hT hid hsymbol hkey

theorem Aside.notify (h : Aside sym T S ids e₀ e) (x : ExecutedEvent) (hid : id ∈ ids)
    (liquidity : Char) : Aside sym T S ids e₀ (e.notify x id liquidity) := by
  unfold Engine.notify
  cases hl : e.orders.lookup id with
  | none => exact h
  | some info => exact h.respond hT (h.owner hid hl).2

theorem Aside.tellCanceled (h : Aside sym T S ids e₀ e) {x : CanceledEvent} (hid : x.id ∈ ids) :
    Aside sym T S ids e₀ (e.tellCanceled x) := by
  unfold Engine.tellCanceled
  split
  · exact h
  · cases hl : e.orders.lookup x.id with
    | none => exact h
    | some info => exact h.respond hT (h.owner hid hl).2

theorem Aside.onEvent (h : Aside sym T S ids e₀ e) {ev : BookEvent} (hids : ∀ r ∈ ev.ids, r ∈ ids) :
    Aside sym T S ids e₀ (e.onEvent ev) := by
  cases ev with
  | added x => exact h.publish hT _
  | replaced x => exact h.publish hT _
  | executed x =>
    have hresting : x.restingId ∈ ids := hids _ (by simp [BookEvent.ids])
    have haggressor : x.aggressorId ∈ ids := hids _ (by simp [BookEvent.ids])
    have htold := ((h.publish hT (.executed x)).notify hT x hresting 'A').notify hT x haggressor 'R'
    exact (htold.reduceOpen hT hresting x.qty).reduceOpen hT haggressor x.qty
  | canceled x =>
    have hid : x.id ∈ ids := hids _ (by simp [BookEvent.ids])
    have htold := (h.publish hT (.canceled x)).tellCanceled hT hid
    simp only [Engine.onEvent, onCanceled]
    split
    · exact htold.reduceOpen hT hid x.canceledQty
    · cases hl : ((e.publish (.canceled x)).tellCanceled x).orders.lookup x.id with
      | none => exact htold
      | some info =>
        obtain ⟨hsymbol, hkey⟩ := htold.owner hid hl
        exact (htold.audit _ _).setOrder hT hid hsymbol hkey

theorem Aside.onEvents (h : Aside sym T S ids e₀ e) {evs : List BookEvent}
    (hids : ∀ ev ∈ evs, ∀ r ∈ ev.ids, r ∈ ids) : Aside sym T S ids e₀ (e.onEvents evs) := by
  induction evs generalizing e with
  | nil => exact h
  | cons ev evs ih =>
    have hev := h.onEvent hT (hids ev List.mem_cons_self)
    exact ih hev (fun ev' hev' => hids ev' (List.mem_cons_of_mem _ hev'))

theorem Aside.cancelUnrested (h : Aside sym T S ids e₀ e) {ref : OrderId} {token : Token}
    (hid : ref ∈ ids) (hkey : sym (tokenKey client token) = T) (qty : Qty) (reason : Char) :
    Aside sym T S ids e₀ (e.cancelUnrested client ref token qty reason) :=
  (h.respond hT hkey).drop hT hid hkey

/-! ### Commands -/

/-- An accepted order touches itself and what rests in its book. -/
theorem Aside.execute {m : Ouch.EnterOrder} {side : Side} {ref : OrderId} {e' : Engine PriorityBook}
    (h : Aside sym T S ids e₀ e) (hstock : m.stock = T) (hkey : sym (tokenKey client m.token) = T)
    (hids : ∀ r ∈ insert ref (e.bookOf T).ids, r ∈ ids)
    (hexec : e.execute client m side ref = some e') : Aside sym T S ids e₀ e' := by
  subst hstock
  have href : ref ∈ ids := hids ref (Finset.mem_insert_self _ _)
  obtain ⟨e₁, hfor, h₁⟩ := h.bookFor hT
  generalize e.bookOf m.stock = b at hfor hids
  obtain ⟨e₁', b', b₁, unmet, e₂, hfor', hunmet, rfl, hexec⟩ := execute_cases hexec
  cases hfor.symm.trans hfor'
  -- the minimum quantity is looked up in the book and leaves it as it is
  cases (minQtyUnmet_spec b side (limitFor m side) m.minQty).symm.trans hunmet
  have h₂ := h₁.setBook hT b
  obtain rfl | ⟨b₂, filled, evs, e₃, -, hioc, rfl, hexec⟩ | ⟨b₂, result, evs, -, hadd, rfl⟩ := hexec
  · exact h₂.cancelUnrested hT href hkey m.shares 'D'
  · have hevents : ∀ ev ∈ evs, ∀ r ∈ ev.ids, r ∈ ids := by
      intro ev hev r hr
      rw [events_of_returned hioc] at hev
      exact hids r (PriorityBook.mem_ids_executeIoc hev hr)
    have h₃ := (h₂.setBook hT b₂).onEvents hT hevents
    obtain rfl | rfl := hexec
    · exact h₃.cancelUnrested hT href hkey _ 'I'
    · exact h₃
  · have hevents : ∀ ev ∈ evs, ∀ r ∈ ev.ids, r ∈ ids := by
      intro ev hev r hr
      rw [events_of_returned hadd] at hev
      exact hids r (PriorityBook.mem_ids_add hev hr)
    have h₃ := (h₂.setBook hT b₂).onEvents hT hevents
    exact h₃.audit _ _

end aside

/-- What is known of an engine between commands. -/
structure AtRest (sym : TokenKey → Symbol) (e : Engine PriorityBook) : Prop where
  filed : Holds (fun _ info => sym info.key = info.symbol) e.orders
  resting : ∀ {T id info}, id ∈ (e.bookOf T).ids → e.orders.lookup id = some info → info.symbol = T
  live : ∀ {key id info}, e.liveTokens.lookup key = some id → e.orders.lookup id = some info →
    info.key = key
  fresh : e.orders.lookup e.nextRef = none

section commands

variable {sym : TokenKey → Symbol} {T S : Symbol} {e e' : Engine PriorityBook} {client : Nat}

theorem AtRest.spares (h : AtRest sym e) (S : Symbol) : Spares sym S e e :=
  ⟨rfl, fun _ hi => hi, fun _ => rfl, fun _ => Iff.rfl, rfl, h.filed⟩

theorem AtRest.aside (h : AtRest sym e) {ids : Finset OrderId}
    (hids : ∀ id ∈ ids, id ∈ (e.bookOf T).ids ∨ ∀ info, e.orders.lookup id = some info →
      info.symbol = T) :
    Aside sym T S ids e (e.setSymbol T) :=
  { h.spares S with
    symbol := rfl
    touched := by
      intro id info hinfo hid
      rcases hids id hid with hrests | hother
      · exact h.resting hrests hinfo
      · exact hother info hinfo }

theorem AtRest.handleEnter (h : AtRest sym e) {m : Ouch.EnterOrder} (hstock : m.stock = T)
    (hkey : sym (tokenKey client m.token) = T) (hT : T ≠ S)
    (henter : e.handleEnter client m = some e') : Spares sym S e e' := by
  obtain ⟨reason, rfl⟩ | ⟨side, -, -, -, hexec⟩ := handleEnter_cases henter
  · exact (h.spares S).respond hT hkey
  · have hset : Aside sym T S (insert e.nextRef (e.bookOf T).ids) e (e.setSymbol T) := by
      refine h.aside (fun id hid => ?_)
      rcases Finset.mem_insert.mp hid with rfl | hid
      · exact .inr (fun info hinfo => by rw [h.fresh] at hinfo; cases hinfo)
      · exact .inl hid
    have hown : (⟨client, m.token, m.stock, side, m.shares⟩ : OrderInfo).symbol = T := hstock
    have haccept := (hset.enroll hT (Finset.mem_insert_self _ _) hown hkey).respond hT
      (show sym (tokenKey client (Response.accepted (acceptedMsg e.now e.nextRef side m)).token) = T
        from hkey)
    subst hstock
    exact (haccept.execute hT rfl hkey (fun r hr => hr) hexec).toSpares

theorem AtRest.handleCancel (h : AtRest sym e) {m : Ouch.CancelOrder}
    (hkey : sym (tokenKey client m.token) = T) (hT : T ≠ S)
    (hcancel : e.handleCancel client m = some e') : Spares sym S e e' := by
  obtain rfl | ⟨id, info, e₁', b', b₁, ok, evs, hlive, hinfo, hfor', hbook, rfl⟩ :=
    handleCancel_cases hcancel
  · exact h.spares S
  · -- the order of a live token is in the book of the token's symbol
    obtain rfl : info.symbol = T := by
      rw [← h.filed id info hinfo, h.live hlive hinfo, hkey]
    have hset : Aside sym info.symbol S (insert id (e.bookOf info.symbol).ids) e
        (e.setSymbol info.symbol) := by
      refine h.aside (fun i hi => ?_)
      rcases Finset.mem_insert.mp hi with rfl | hi
      · exact .inr (fun info' hinfo' => by cases hinfo.symm.trans hinfo'; rfl)
      · exact .inl hi
    obtain ⟨e₁, hfor, h₁⟩ := hset.bookFor hT
    cases hfor.symm.trans hfor'
    have hevents : ∀ ev ∈ evs, ∀ r ∈ ev.ids, r ∈ insert id (e.bookOf info.symbol).ids := by
      intro ev hev r hr
      rw [events_of_returned hbook] at hev
      exact PriorityBook.mem_ids_cancel hev hr
    exact ((h₁.setBook hT b₁).onEvents hT hevents).toSpares

theorem AtRest.handleReplace (h : AtRest sym e) {m : Ouch.ReplaceOrder}
    (hkey : sym (tokenKey client m.existingToken) = T)
    (hkey' : sym (tokenKey client m.replacementToken) = T) (hT : T ≠ S)
    (hreplace : e.handleReplace client m = some e') : Spares sym S e e' := by
  obtain rfl | ⟨oldRef, old, e₁', b', b₁, ok, evs, hlive, -, -, -, hold, hfor', hbook, rfl⟩ :=
    handleReplace_cases hreplace
  · exact h.spares S
  · obtain rfl : old.symbol = T := by
      rw [← h.filed oldRef old hold, h.live hlive hold, hkey]
    generalize hids : insert oldRef (insert e.nextRef (e.bookOf old.symbol).ids) = ids
    have hset : Aside sym old.symbol S ids e (e.setSymbol old.symbol) := by
      refine h.aside (fun i hi => ?_)
      rw [← hids, Finset.mem_insert, Finset.mem_insert] at hi
      rcases hi with rfl | rfl | hi
      · exact .inr (fun info hinfo => by cases hold.symm.trans hinfo; rfl)
      · exact .inr (fun info hinfo => by rw [h.fresh] at hinfo; cases hinfo)
      · exact .inl hi
    have hdrop := hset.drop hT (show oldRef ∈ ids by rw [← hids]; simp) hkey
    have hown : (⟨client, m.replacementToken, old.symbol, old.side, m.shares⟩ : OrderInfo).symbol =
      old.symbol := rfl
    have hswap := ((hdrop.enroll hT (show e.nextRef ∈ ids by rw [← hids]; simp) hown hkey').respond
      hT (show sym (tokenKey client (Response.replaced (replacedMsg e.now e.nextRef old m)).token) =
        old.symbol from hkey')).setSuppress true
    -- the callback for the old order is suppressed while the book replaces it
    obtain ⟨e₁, hfor, h₁⟩ := hswap.bookFor hT
    cases hfor.symm.trans hfor'
    have hevents : ∀ ev ∈ evs, ∀ r ∈ ev.ids, r ∈ ids := by
      intro ev hev r hr
      rw [events_of_returned hbook] at hev
      rw [← hids]
      exact PriorityBook.mem_ids_replace hev hr
    have h₂ := (h₁.setBook hT b₁).onEvents hT hevents
    exact ((h₂.audit _ _).setSuppress false).toSpares

/-- **A command spares the other symbols.** -/
theorem AtRest.process (h : AtRest sym e) {cmd : Command}
    (hkeeps : cmd.KeepsTo (fun client token => sym (tokenKey client token)))
    (hS : sym (tokenKey cmd.clientId cmd.token) ≠ S) {now : Nat}
    (hprocess : e.process now cmd = some e') : Spares sym S e e' := by
  have hnow : AtRest sym (e.setNow now) := { h with }
  have hspares : Spares sym S (e.setNow now) e' := by
    unfold Engine.process at hprocess
    unfold Command.KeepsTo at hkeeps
    unfold Command.token at hS
    cases hmsg : cmd.msg with
    | enter m =>
      rw [hmsg] at hkeeps hS hprocess
      exact hnow.handleEnter hkeeps rfl hS hprocess
    | cancel m =>
      rw [hmsg] at hS hprocess
      exact hnow.handleCancel rfl hS hprocess
    | replace m =>
      rw [hmsg] at hkeeps hS hprocess
      exact hnow.handleReplace rfl hkeeps.symm hS hprocess
  exact { hspares with }

end commands

end Engine

end MatchingEngine
