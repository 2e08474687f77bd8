import MatchingEngine.Engine.Fills
import MatchingEngine.Engine.Tape

/-! # Where orders and prices come from

    Whatever the engine keeps or sends was brought to it by its commands: the
    owner of a live order is a client that sent a command, and every price in a
    response or in a market event is a price that some command names
    (`prices_named`).
-/

namespace MatchingEngine

open Venue

/-! ## Section 1: Owners -/

section owners

variable {P : Nat → Prop} {v v' : Venue} {f f' : Option Flight} {now client : Nat}

/-- The owners of the live orders have the property `P`. -/
def Venue.OwnedBy (v : Venue) (P : Nat → Prop) : Prop :=
  ∀ id info, v.orders id = some info → P info.clientId

theorem Venue.OwnedBy.setLess (h : v.OwnedBy P) {id : OrderId} {info : OrderInfo}
    (hinfo : v.orders id = some info) (qty : Qty) : (v.setOrder id (info.less qty)).OwnedBy P := by
  intro id' info' hinfo'
  by_cases hid : id' = id
  · rw [hid, orders_setOrder, Function.update_self] at hinfo'
    obtain ⟨-, rfl⟩ := OrderInfo.less_some hinfo'
    exact h id info hinfo
  · rw [orders_setOrder, Function.update_of_ne hid] at hinfo'
    exact h id' info' hinfo'

theorem Venue.OwnedBy.setNone (h : v.OwnedBy P) (id : OrderId) :
    (v.setOrder id none).OwnedBy P := by
  intro id' info' hinfo'
  by_cases hid : id' = id
  · rw [hid, orders_setOrder, Function.update_self] at hinfo'
    cases hinfo'
  · rw [orders_setOrder, Function.update_of_ne hid] at hinfo'
    exact h id' info' hinfo'

theorem Venue.OwnedBy.enroll (h : v.OwnedBy P) (info : OrderInfo) (hclient : P info.clientId) :
    (v.enroll info).OwnedBy P := by
  intro id' info' hinfo'
  by_cases hid : id' = v.nextRef
  · simp only [Venue.enroll, hid, orders_setOrder, Function.update_self] at hinfo'
    cases hinfo'
    exact hclient
  · simp only [Venue.enroll, orders_setOrder, Function.update_of_ne hid] at hinfo'
    exact h id' info' hinfo'

/-- **Step lemma.** A new order belongs to the client whose command it is. -/
theorem Inv.ownedBy (hinv : Inv v f) (h : v.OwnedBy P) (hclient : P client)
    (hs : Step now client (v, f) (v', f')) : v'.OwnedBy P := by
  cases hs with
  | reject | rest | land => exact h
  | accept _ m side => exact h.enroll ⟨client, m.token, m.stock, side, m.shares⟩ hclient
  | execute _ g o l resting aggressor best left cross hr ha =>
    have ho : o ∈ (v.book g.symbol).side g.side.opposite := by simp [best]
    have hne : g.id ≠ o.id := (hinv.mirror.apart g rfl ho).symm
    have hfirst := h.setLess hr (v.execution g o).qty
    have ha' : (v.setOrder o.id (resting.less (v.execution g o).qty)).orders g.id =
        some aggressor := by
      rw [orders_setOrder, Function.update_of_ne hne, ha]
    exact hfirst.setLess ha' (v.execution g o).qty
  | kill _ g => exact h.setNone g.id
  | cancel _ info o x live => exact h.setLess live x.canceledQty
  | replaceCross _ m oldRef old | replaceRest _ m oldRef old =>
    exact (h.setNone oldRef).enroll
      ⟨client, m.replacementToken, old.symbol, old.side, m.shares⟩ hclient

end owners

/-! ## Section 2: Prices -/

/-- The price in an output. -/
def Output.price : Output → Option Price
  | .market m =>
    match m.ev with
    | .added e => some e.price
    | .executed e => some e.price
    | .replaced e => some e.price
    | .canceled _ => none
  | .response r =>
    match r.msg with
    | .accepted m => some m.price
    | .executed m => some m.executionPrice
    | .replaced m => some m.price
    | .canceled _ | .rejected _ => none

/-- The price that a command names. -/
def CommandMsg.price : CommandMsg → Option Price
  | .enter m => some m.price
  | .replace m => some m.price
  | .cancel _ => none

/-- The price in an acknowledgement. -/
def Output.ackPrice : Output → Option Price
  | .market _ => none
  | .response r =>
    match r.msg with
    | .accepted m => some m.price
    | .replaced m => some m.price
    | .executed _ | .canceled _ | .rejected _ => none

theorem CommandMsg.Offers.price {msg : CommandMsg} {r : Resting} (h : msg.Offers r) :
    msg.price = some r.price := by
  cases msg with
  | enter m => exact congrArg some h.2.2.1.symm
  | replace m => exact congrArg some h.1.symm
  | cancel m => exact h.elim

/-- What is on the tape has a price that was introduced on it. -/
theorem Tape.price_introduced {evs : List MarketEvent} {books : Symbol → PriorityBook}
    (h : Tape evs books) {m : MarketEvent} (hm : m ∈ evs) {p : Price}
    (hp : (Output.market m).price = some p) :
    ∃ m' ∈ evs, ∃ r, m'.ev.introduces = some r ∧ r.price = p := by
  induction h with
  | nil => cases hm
  | @snoc evs books tape m₀ enabled fresh ih =>
    rcases List.mem_append.mp hm with hm | hm
    · obtain ⟨m', hm', hrest⟩ := ih hm
      exact ⟨m', List.mem_append_left _ hm', hrest⟩
    · cases List.mem_singleton.mp hm
      cases hev : m.ev with
      | added e =>
        simp only [Output.price, hev, Option.some.injEq] at hp
        exact ⟨m, by simp, _, by rw [hev]; rfl, hp⟩
      | replaced e =>
        simp only [Output.price, hev, Option.some.injEq] at hp
        exact ⟨m, by simp, _, by rw [hev]; rfl, hp⟩
      | canceled e => simp [Output.price, hev] at hp
      | executed e =>
        -- an execution has the price of an order that rests
        simp only [Output.price, hev, Option.some.injEq] at hp
        rw [hev] at enabled
        cases enabled with
        | executed _ x l best id price qty le matchId =>
          have hx : x ∈ (books m.symbol).side e.aggressorSide.opposite := by simp [best]
          obtain ⟨m', hm', -, r, hr, -, hprice, -⟩ := tape.introduced hx
          exact ⟨m', List.mem_append_left _ hm', r, hr, hprice.trans (price.symm.trans hp)⟩

/-- A reported execution is on the feed. -/
theorem TwoSided.on_feed {log : List Output} (h : TwoSided log) {r : ClientResponse}
    {m : Ouch.Executed} (hr : .response r ∈ log) (hm : r.msg = .executed m) :
    ∃ ev ∈ marketEventsOf log, (Output.market ev).price = some m.executionPrice := by
  induction h with
  | nil => cases hr
  | other o before no ih =>
    rcases List.mem_append.mp hr with hr | hr
    · obtain ⟨ev, hev, hprice⟩ := ih hr
      exact ⟨ev, by simp [hev], hprice⟩
    · rw [← List.mem_singleton.mp hr] at no
      exact absurd ⟨m, hm⟩ no
  | @fill log ts symbol x resting aggressor before restingOrder aggressorOrder ih =>
    rcases List.mem_append.mp hr with hr | hr
    · obtain ⟨ev, hev, hprice⟩ := ih hr
      exact ⟨ev, by simp [hev], hprice⟩
    · refine ⟨⟨ts, symbol, .executed x⟩, by simp, ?_⟩
      simp only [List.mem_cons, reduceCtorEq, Output.response.injEq, List.not_mem_nil, or_false,
        false_or] at hr
      rcases hr with rfl | rfl <;> (cases hm; rfl)

namespace Engine

/-! ### Acknowledgements

    Only an accepted or replaced order is acknowledged, with the price of its
    command. -/

section acknowledgements

variable {B : Type} {msg : CommandMsg} {e e₁ e₂ : Engine B}

/-- The output acknowledges nothing, or the price of the command. -/
def Acks (msg : CommandMsg) (o : Output) : Prop := ∀ p, o.ackPrice = some p → msg.price = some p

theorem acks_of_none {o : Output} (h : o.ackPrice = none) : Acks msg o := by
  intro p hp
  rw [h] at hp
  cases hp

/-- Everything sent from `e` to `e'`. -/
def Sends (msg : CommandMsg) (e e' : Engine B) : Prop :=
  ∃ outs, e'.out = e.out ++ outs ∧ ∀ o ∈ outs, Acks msg o

theorem sends_nothing (h : e₁.out = e.out) : Sends msg e e₁ := ⟨[], by simp [h], by simp⟩

theorem Sends.trans (h : Sends msg e e₁) (h' : Sends msg e₁ e₂) : Sends msg e e₂ := by
  obtain ⟨outs, hout, hacks⟩ := h
  obtain ⟨outs', hout', hacks'⟩ := h'
  refine ⟨outs ++ outs', by rw [hout', hout, List.append_assoc], fun o ho => ?_⟩
  rcases List.mem_append.mp ho with ho | ho
  · exact hacks o ho
  · exact hacks' o ho

theorem sends_push (e : Engine B) {o : Output} (h : Acks msg o) : Sends msg e (e.push o) :=
  ⟨[o], rfl, by simpa using h⟩

theorem sends_audit (e : Engine B) (bad : Bool) (fault : Fault) :
    Sends msg e (e.audit bad fault) := by
  unfold audit
  split <;> exact sends_nothing rfl

theorem sends_reduceOpen (e : Engine B) (id : OrderId) (qty : Qty) :
    Sends msg e (e.reduceOpen id qty) := by
  unfold reduceOpen
  cases e.orders.lookup id with
  | none => exact sends_nothing rfl
  | some info =>
    dsimp only
    split <;> exact (sends_audit e _ _).trans (sends_nothing rfl)

theorem sends_publish (e : Engine B) (ev : BookEvent) : Sends msg e (e.publish ev) :=
  sends_push e (acks_of_none rfl)

theorem sends_notify (e : Engine B) (x : ExecutedEvent) (id : OrderId) (liquidity : Char) :
    Sends msg e (e.notify x id liquidity) := by
  unfold notify
  cases e.orders.lookup id with
  | none => exact sends_nothing rfl
  | some info => exact sends_push e (acks_of_none rfl)

theorem sends_tellCanceled (e : Engine B) (x : CanceledEvent) : Sends msg e (e.tellCanceled x) := by
  unfold tellCanceled
  split
  · exact sends_nothing rfl
  · cases e.orders.lookup x.id with
    | none => exact sends_nothing rfl
    | some info => exact sends_push e (acks_of_none rfl)

/-- No callback acknowledges anything. -/
theorem sends_onEvent (e : Engine B) (ev : BookEvent) : Sends msg e (e.onEvent ev) := by
  cases ev with
  | added x => exact sends_publish e _
  | replaced x => exact sends_publish e _
  | executed x =>
    have htold : Sends msg e ((e.publish (.executed x)).notify x x.restingId 'A') :=
      (sends_publish e _).trans (sends_notify _ _ _ _)
    have htold' := htold.trans (sends_notify _ x x.aggressorId 'R')
    exact (htold'.trans (sends_reduceOpen _ x.restingId x.qty)).trans
      (sends_reduceOpen _ x.aggressorId x.qty)
  | canceled x =>
    have htold : Sends msg e ((e.publish (.canceled x)).tellCanceled x) :=
      (sends_publish e _).trans (sends_tellCanceled _ _)
    unfold onEvent onCanceled
    dsimp only
    split
    · exact htold.trans (sends_reduceOpen _ _ _)
    · cases ((e.publish (.canceled x)).tellCanceled x).orders.lookup x.id with
      | none => exact htold
      | some info => exact (htold.trans (sends_audit _ _ _)).trans (sends_nothing rfl)

theorem sends_onEvents (e : Engine B) (evs : List BookEvent) : Sends msg e (e.onEvents evs) := by
  induction evs generalizing e with
  | nil => exact sends_nothing rfl
  | cons ev evs ih => exact (sends_onEvent e ev).trans (ih (e.onEvent ev))

theorem sends_cancelUnrested (e : Engine B) (client : Nat) (ref : OrderId) (token : Ouch.Token)
    (qty : Qty) (reason : Char) : Sends msg e (e.cancelUnrested client ref token qty reason) :=
  (sends_push e (acks_of_none rfl)).trans (sends_nothing rfl)

theorem sends_setBook (e : Engine B) (symbol : Symbol) (book : B) :
    Sends msg e (e.setBook symbol book) :=
  sends_nothing rfl

variable [Book B]

theorem sends_bookFor (e : Engine B) (symbol : Symbol) : Sends msg e (e.bookFor symbol).1 := by
  unfold bookFor
  cases e.books.lookup symbol <;> exact sends_nothing rfl

theorem sends_execute {client : Nat} {m : Ouch.EnterOrder} {side : Side} {ref : OrderId}
    (h : e.execute client m side ref = some e₁) : Sends msg e e₁ := by
  obtain ⟨e₂, book, book₁, unmet, e₃, hfor, -, rfl, h⟩ := execute_cases h
  have hbook : Sends msg e (e.bookFor m.stock).1 := sends_bookFor e m.stock
  rw [hfor] at hbook
  have hset := hbook.trans (sends_setBook _ m.stock book₁)
  obtain rfl | ⟨book₂, filled, events, e₄, -, -, rfl, h⟩ | ⟨book₂, result, events, -, -, rfl⟩ := h
  · exact hset.trans (sends_cancelUnrested _ _ _ _ _ _)
  · have hall := (hset.trans (sends_setBook _ m.stock book₂)).trans (sends_onEvents _ events)
    obtain rfl | rfl := h
    · exact hall.trans (sends_cancelUnrested _ _ _ _ _ _)
    · exact hall
  · have hall := (hset.trans (sends_setBook _ m.stock book₂)).trans (sends_onEvents _ events)
    exact hall.trans (sends_audit _ _ _)

variable {client : Nat}

theorem sends_handleEnter {m : Ouch.EnterOrder} (h : e.handleEnter client m = some e₁) :
    Sends (.enter m) e e₁ := by
  obtain ⟨reason, rfl⟩ | ⟨side, -, -, -, hexec⟩ := handleEnter_cases h
  · exact sends_push e (acks_of_none rfl)
  · have haccept : Sends (.enter m) e (e.accept client m side) :=
      ⟨[_], rfl, by simp [Acks, Output.ackPrice, CommandMsg.price, acceptedMsg]⟩
    exact haccept.trans (sends_execute hexec)

theorem sends_handleCancel {m : Ouch.CancelOrder} (h : e.handleCancel client m = some e₁) :
    Sends msg e e₁ := by
  obtain rfl | ⟨id, info, e₂, book, book₁, ok, events, -, -, hfor, -, rfl⟩ := handleCancel_cases h
  · exact sends_nothing rfl
  · have hsymbol : Sends msg e (e.setSymbol info.symbol) := sends_nothing rfl
    have hbook := hsymbol.trans (sends_bookFor _ info.symbol)
    rw [hfor] at hbook
    exact (hbook.trans (sends_setBook _ _ _)).trans (sends_onEvents _ _)

theorem sends_handleReplace {m : Ouch.ReplaceOrder} (h : e.handleReplace client m = some e₁) :
    Sends (.replace m) e e₁ := by
  obtain rfl | ⟨oldRef, old, e₂, book, book₁, ok, events, -, -, -, -, -, hfor, -, rfl⟩ :=
    handleReplace_cases h
  · exact sends_nothing rfl
  · have hswap : Sends (.replace m) e ((e.swap client m oldRef old).setSuppress true) :=
      ⟨[_], rfl, by simp [Acks, Output.ackPrice, CommandMsg.price, replacedMsg]⟩
    have hbook := hswap.trans (sends_bookFor _ old.symbol)
    rw [hfor] at hbook
    have hall := (hbook.trans (sends_setBook _ old.symbol book₁)).trans (sends_onEvents _ events)
    exact (hall.trans (sends_audit _ _ _)).trans (sends_nothing rfl)

/-- One command acknowledges its own price only. -/
theorem sends_process {now : Nat} {cmd : Command} (h : e.process now cmd = some e₁) :
    Sends cmd.msg e e₁ := by
  have hnow : Sends cmd.msg e (e.setNow now) := sends_nothing rfl
  unfold process at h
  cases hmsg : cmd.msg with
  | enter m => rw [hmsg] at h hnow; exact hnow.trans (sends_handleEnter h)
  | cancel m => rw [hmsg] at h hnow; exact hnow.trans (sends_handleCancel h)
  | replace m => rw [hmsg] at h hnow; exact hnow.trans (sends_handleReplace h)

end acknowledgements

/-! ## Section 3: Runs -/

/-- What the engine has and sends after some commands comes from them. -/
structure Sourced (cmds : List (Nat × Command)) (e : Engine FastBook) : Prop where
  owners : ∀ id info, e.orders.lookup id = some info → ∃ c ∈ cmds, c.2.clientId = info.clientId
  prices : ∀ o ∈ e.out, ∀ p, o.price = some p → ∃ c ∈ cmds, c.2.msg.price = some p

theorem acks_named (cmds : List (Nat × Command)) {e : Engine FastBook}
    (h : Engine.run ({} : Engine FastBook) cmds = some e) :
    ∀ o ∈ e.out, ∀ p, o.ackPrice = some p → ∃ c ∈ cmds, c.2.msg.price = some p := by
  induction cmds using List.reverseRecOn generalizing e with
  | nil =>
    cases h
    intro o ho
    cases ho
  | append_singleton cmds c ih =>
    rw [run_snoc, Option.bind_eq_some_iff] at h
    obtain ⟨e₀, hrun, hprocess⟩ := h
    obtain ⟨outs, hout, hacks⟩ := sends_process hprocess
    intro o ho p hp
    rw [hout] at ho
    rcases List.mem_append.mp ho with ho | ho
    · obtain ⟨c', hc', hprice⟩ := ih hrun o ho p hp
      exact ⟨c', List.mem_append_left _ hc', hprice⟩
    · exact ⟨c, by simp, hacks o ho p hp⟩

theorem owners_named (cmds : List (Nat × Command)) :
    ∃ e v, Engine.run ({} : Engine FastBook) cmds = some e ∧ Run {} v ∧ Realizes e v ∧
      v.OwnedBy (fun client => ∃ c ∈ cmds, c.2.clientId = client) := by
  induction cmds using List.reverseRecOn with
  | nil => exact ⟨{}, {}, rfl, .nil _, realizes_fresh, by simp [OwnedBy]⟩
  | append_singleton cmds c ih =>
    obtain ⟨e, v, hrun, hv, hreal, howned⟩ := ih
    have hinv := hv.inv inv_fresh
    obtain ⟨e', v', he, hcmd, hreal'⟩ := hreal.process hinv c.1 c.2
    refine ⟨e', v', ?_, .snoc c.1 c.2.clientId hv hcmd, hreal', ?_⟩
    · rw [run_snoc, hrun]
      exact he
    · have howned' : v.OwnedBy (fun client => ∃ c' ∈ cmds ++ [c], c'.2.clientId = client) := by
        intro id info hinfo
        obtain ⟨c', hc', hclient⟩ := howned id info hinfo
        exact ⟨c', List.mem_append_left _ hc', hclient⟩
      exact (hinv.steps
        (P := fun u _ => u.OwnedBy (fun client => ∃ c' ∈ cmds ++ [c], c'.2.clientId = client))
        howned' (fun hu ho hs => hu.ownedBy ho ⟨c, by simp, rfl⟩ hs) hcmd).2

/-- **Everything comes from the commands.** -/
theorem run_sourced (cmds : List (Nat × Command)) :
    ∃ e, Engine.run ({} : Engine FastBook) cmds = some e ∧ Sourced cmds e := by
  obtain ⟨e, v, hrun, hv, hreal, howned⟩ := owners_named cmds
  refine ⟨e, hrun, ?_, ?_⟩
  · intro id info hinfo
    exact howned id info ((hreal.records.orders id).symm.trans hinfo)
  · -- prices on the feed were introduced on the tape
    obtain ⟨e', v', hrun', -, -, htape, hcharted⟩ := run_tape cmds
    cases hrun.symm.trans hrun'
    have hfeed : ∀ m ∈ e.marketEvents, ∀ p, (Output.market m).price = some p →
        ∃ c ∈ cmds, c.2.msg.price = some p := by
      intro m hm p hp
      obtain ⟨m', hm', r, hr, rfl⟩ := htape.price_introduced hm hp
      obtain ⟨-, c, hc, hoffers⟩ := hcharted.introduced m' hm' r hr
      exact ⟨c, hc, hoffers.price⟩
    intro o ho p hp
    cases o with
    | market m =>
      apply hfeed m _ p hp
      exact List.mem_filterMap.mpr ⟨.market m, ho, rfl⟩
    | response r =>
      cases hr : r.msg with
      | accepted m =>
        exact acks_named cmds hrun _ ho p
          (by simpa [Output.price, Output.ackPrice, hr] using hp)
      | replaced m =>
        exact acks_named cmds hrun _ ho p
          (by simpa [Output.price, Output.ackPrice, hr] using hp)
      | executed m =>
        obtain ⟨ev, hev, hprice⟩ := hv.twoSided.2.on_feed (hreal.records.out ▸ ho) hr
        rw [← hreal.records.out] at hev
        apply hfeed ev hev p
        rw [hprice, ← hp]
        simp [Output.price, hr]
      | canceled m => simp [Output.price, hr] at hp
      | rejected m => simp [Output.price, hr] at hp

end Engine

end MatchingEngine
