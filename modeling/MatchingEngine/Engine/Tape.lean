import MatchingEngine.Engine.Refines

/-! # The tape

    The market events of a run, without the responses. A tape is a run of enabled
    events over the books of all symbols, in which no order enters with a
    reference that any book holds. The market events of every run of the engine
    are a tape that ends in the engine's books (`run_tape`).

    Every order on the tape is introduced by a command: its price is the one
    the command names, it has no more shares than the command, and its reference
    is the number of an earlier or the same command (`Charted`). What rests was
    introduced (`Tape.introduced`).
-/

namespace MatchingEngine

/-! ## Section 1: Tapes -/

/-- The order that an event brings into a book. -/
def BookEvent.introduces : BookEvent → Option Resting
  | .added e => some ⟨e.id, e.price, e.qty⟩
  | .replaced e => some ⟨e.newId, e.price, e.qty⟩
  | .executed _ | .canceled _ => none

inductive Tape : List MarketEvent → (Symbol → PriorityBook) → Prop where
  | nil : Tape [] (fun _ => {})
  | snoc {evs : List MarketEvent} {books : Symbol → PriorityBook} (tape : Tape evs books)
      (m : MarketEvent) (enabled : (books m.symbol).Enabled m.ev)
      (fresh : ∀ r, m.ev.introduces = some r → ∀ symbol, (books symbol).contains r.id = false) :
      Tape (evs ++ [m]) (Function.update books m.symbol ((books m.symbol).applyEvent m.ev))

namespace Tape

variable {evs : List MarketEvent} {books : Symbol → PriorityBook}

/-- The beginning of a tape is a tape. -/
theorem take (h : Tape evs books) (n : Nat) : ∃ books', Tape (evs.take n) books' := by
  induction h with
  | nil => exact ⟨_, by rw [List.take_nil]; exact .nil⟩
  | @snoc evs books tape m enabled fresh ih =>
    by_cases hn : n ≤ evs.length
    · rw [List.take_append_of_le_length hn]
      exact ih
    · rw [List.take_of_length_le (by simp; omega)]
      exact ⟨_, tape.snoc m enabled fresh⟩

theorem wf (h : Tape evs books) (symbol : Symbol) : (books symbol).WF := by
  induction h with
  | nil => exact PriorityBook.wf_empty
  | @snoc evs books _ m enabled _ ih =>
    by_cases hs : symbol = m.symbol
    · rw [hs, Function.update_self]
      exact (hs ▸ ih).applyEvent enabled
    · rw [Function.update_of_ne hs]
      exact ih

end Tape

/-- What rests after an event rested before it, perhaps with more shares, or is
    introduced by it. -/
theorem PriorityBook.WF.mem_applyEvent {b : PriorityBook} (h : b.WF) {ev : BookEvent}
    (he : b.Enabled ev) {s : Side} {o : Resting} (ho : o ∈ (b.applyEvent ev).side s) :
    (∃ y ∈ b.side s, y.id = o.id ∧ y.price = o.price ∧ o.openQty ≤ y.openQty) ∨
      ev.introduces = some o := by
  -- a reduction leaves the others alone
  have hreduce : ∀ {t : Side} {x : Resting} {qty : Qty}, x ∈ b.side t → qty ≤ x.openQty →
      o ∈ (b.reduce x.id qty).side s →
      ∃ y ∈ b.side s, y.id = o.id ∧ y.price = o.price ∧ o.openQty ≤ y.openQty := by
    intro t x qty hx hle ho
    rcases (h.mem_side_reduce hx).mp ho with ⟨ho, -⟩ | ⟨rfl, -, rfl⟩
    · exact ⟨o, ho, rfl, rfl, UInt32.le_refl _⟩
    · refine ⟨x, hx, rfl, rfl, ?_⟩
      rw [UInt32.le_iff_toNat_le, UInt32.toNat_sub_of_le _ _ hle]
      omega
  cases he with
  | added e fresh price qty open_ =>
    rcases mem_side_rest.mp ho with ho | ⟨-, rfl⟩
    · exact .inl ⟨o, ho, rfl, rfl, UInt32.le_refl _⟩
    · exact .inr rfl
  | executed e x l best id price qty le matchId =>
    have hx : x ∈ b.side e.aggressorSide.opposite := by simp [best]
    have ho' : o ∈ (b.reduce x.id e.qty).side s := by
      rw [← id]
      cases s <;> exact ho
    exact .inl (hreduce hx le ho')
  | canceled e t x mem id qty le removed =>
    rw [h.applyEvent_canceled mem id removed] at ho
    exact .inl (hreduce mem le ho)
  | replaced e x mem id ne fresh price qty open_ =>
    rcases mem_side_rest.mp ho with ho | ⟨-, rfl⟩
    · exact .inl ⟨o, (mem_side_remove.mp ho).1, rfl, rfl, UInt32.le_refl _⟩
    · exact .inr rfl

/-- **What rests was introduced**, with at least the shares it has now. -/
theorem Tape.introduced {evs : List MarketEvent} {books : Symbol → PriorityBook}
    (h : Tape evs books)
    {symbol : Symbol} {s : Side} {o : Resting} (ho : o ∈ (books symbol).side s) :
    ∃ m ∈ evs, m.symbol = symbol ∧ ∃ r, m.ev.introduces = some r ∧ r.id = o.id ∧ r.price = o.price ∧
      o.openQty ≤ r.openQty := by
  induction h generalizing o with
  | nil => cases s <;> cases ho
  | @snoc evs books tape m enabled fresh ih =>
    by_cases hs : symbol = m.symbol
    · rw [hs, Function.update_self] at ho
      rcases (tape.wf m.symbol).mem_applyEvent enabled ho with ⟨y, hy, hid, hprice, hle⟩ | hnew
      · obtain ⟨m', hm', hsym, r, hr, hrid, hrprice, hrle⟩ := ih (hs ▸ hy)
        exact ⟨m', List.mem_append_left _ hm', hsym, r, hr, hrid.trans hid, hrprice.trans hprice,
          UInt32.le_trans hle hrle⟩
      · exact ⟨m, by simp, hs.symm, o, hnew, rfl, rfl, UInt32.le_refl _⟩
    · rw [Function.update_of_ne hs] at ho
      obtain ⟨m', hm', hrest⟩ := ih ho
      exact ⟨m', List.mem_append_left _ hm', hrest⟩

/-! ## Section 2: The tape of a venue -/

section venue

open Venue

variable {v v' : Venue} {f f' : Option Flight} {now client : Nat}

theorem Inv.fresh_nextRef (h : Inv v f) (symbol : Symbol) :
    (v.book symbol).contains v.nextRef = false := by
  rw [PriorityBook.contains_eq_false]
  intro s o ho hid
  obtain ⟨info, hi, -⟩ := h.mirror.resting ho
  exact absurd (h.keys.fresh hi) (by rw [hid]; exact Nat.lt_irrefl _)

/-- **Step lemma.** -/
theorem Inv.tape (h : Inv v f) (ht : Tape (marketEventsOf v.log) v.book)
    (hs : Step now client (v, f) (v', f')) : Tape (marketEventsOf v'.log) v'.book := by
  cases hs with
  | reject | accept | kill => simpa [accepted, enroll, killed] using ht
  | land => exact ht
  | execute _ g o l resting aggressor best left cross hr ha =>
    rw [log_executed, book_executed]
    simpa using ht.snoc ⟨now, g.symbol, .executed (v.execution g o)⟩
      (h.mirror.enabled_execution best left) (by simp [BookEvent.introduces])
  | rest _ g left price done =>
    have hfresh : ∀ symbol, (v.book symbol).contains g.id = false := fun symbol =>
      PriorityBook.contains_eq_false.mpr (fun s o ho => h.mirror.apart g rfl ho)
    have henabled := PriorityBook.Enabled.added (b := v.book g.symbol)
      ⟨g.id, g.side, g.limit, g.left⟩ (hfresh g.symbol) price left done
    simpa [rested, book_event] using ht.snoc ⟨now, g.symbol, _⟩ henabled
      (fun r hr symbol => by cases hr; exact hfresh symbol)
  | cancel _ info o x live owner rests id qty le removed =>
    rw [log_canceled, book_canceled]
    simpa using ht.snoc ⟨now, info.symbol, .canceled x⟩
      (.canceled x info.side o rests id qty le removed) (by simp [BookEvent.introduces])
  | replaceCross _ m oldRef old o live owner rests id unused price shares =>
    have hpos : o.openQty ≠ 0 := ((h.mirror.wf old.symbol).sides old.side).pos o rests
    rw [log_swapped, book_swapped]
    simpa using ht.snoc ⟨now, old.symbol, .canceled ⟨oldRef, o.openQty, true⟩⟩
      (.canceled _ old.side o rests id hpos (UInt32.le_refl _) (by simp))
      (by simp [BookEvent.introduces])
  | replaceRest _ m oldRef old o live owner rests id unused price shares done =>
    have hne : v.nextRef ≠ oldRef := (Nat.ne_of_lt (h.keys.fresh live)).symm
    rw [log_swapped, book_swapped]
    simpa using ht.snoc ⟨now, old.symbol,
      .replaced ⟨oldRef, v.nextRef, old.side, m.price, m.shares⟩⟩
        (.replaced _ o rests id hne (h.fresh_nextRef _) price shares done)
      (fun r hr symbol => by cases hr; exact h.fresh_nextRef symbol)

end venue

/-! ## Section 3: What a command introduces -/

/-- The command names this price, and at least these shares, for an order that
    may rest. -/
def CommandMsg.Offers : CommandMsg → Resting → Prop
  | .enter m, r =>
    m.price ≠ Ouch.kMarketPrice ∧ m.tif ≠ Ouch.kTifIOC ∧ r.price = m.price ∧ r.openQty ≤ m.shares
  | .replace m, r => r.price = m.price ∧ r.openQty ≤ m.shares
  | .cancel _, _ => False

namespace PriorityBook

theorem walk_left_le (b : PriorityBook) (id : OrderId) (s : Side) (limit : Price) (qty : Qty) :
    (b.walk id s limit qty).left ≤ qty := by
  have hsum : (b.walk id s limit qty).left.toNat +
      ((b.walk id s limit qty).events.map (fun e => e.qty.toNat)).sum = qty.toNat :=
    fill_conserves _ _ _
  rw [UInt32.le_iff_toNat_le]
  omega

section introduces

variable {b : PriorityBook} {id : OrderId} {s : Side} {price : Price} {qty : Qty} {ev : BookEvent}
  {r : Resting}

theorem introduces_executeIoc (h : ev ∈ (b.executeIoc id s price qty).2.2) :
    ev.introduces = none := by
  rw [executeIoc_eq] at h
  obtain ⟨x, -, rfl⟩ := List.mem_map.mp h
  rfl

theorem introduces_enter (h : ev ∈ (b.enter id s price qty).2.2) (hr : ev.introduces = some r) :
    r.id = id ∧ r.price = price ∧ r.openQty ≤ qty := by
  have hwalk : ∀ {ev}, ev ∈ (b.walk id s price qty).events.map BookEvent.executed →
      ev.introduces ≠ some r := by
    intro ev hev heq
    obtain ⟨x, -, rfl⟩ := List.mem_map.mp hev
    cases heq
  rw [enter_eq] at h
  dsimp only at h
  split at h
  · exact absurd hr (hwalk h)
  · rcases List.mem_append.mp h with h | h
    · exact absurd hr (hwalk h)
    · rw [List.mem_singleton.mp h] at hr
      cases hr
      exact ⟨rfl, rfl, walk_left_le b id s price qty⟩

theorem introduces_add (h : ev ∈ (b.add id s price qty).2.2) (hr : ev.introduces = some r) :
    r.id = id ∧ r.price = price ∧ r.openQty ≤ qty := by
  unfold add at h
  split at h
  · cases h
  split at h
  · cases h
  split at h
  · cases h
  exact introduces_enter h hr

theorem introduces_cancel (h : ev ∈ (b.cancel id qty).2.2) : ev.introduces = none := by
  unfold cancel at h
  split at h
  · cases h
  split at h
  · cases h
  split at h <;> (rw [List.mem_singleton.mp h]; rfl)

theorem introduces_replace {oldId : OrderId} (h : ev ∈ (b.replace oldId id price qty).2.2)
    (hr : ev.introduces = some r) : r.id = id ∧ r.price = price ∧ r.openQty ≤ qty := by
  unfold replace at h
  split at h
  · cases h
  split at h
  · cases h
  split at h
  · cases h
  dsimp only at h
  split at h
  · rcases List.mem_cons.mp h with rfl | h
    · cases hr
    · exact introduces_enter h hr
  · rw [List.mem_singleton.mp h] at hr
    cases hr
    exact ⟨rfl, rfl, UInt32.le_refl _⟩

end introduces

end PriorityBook

namespace Engine

/-! ### What the engine publishes

    Most of what the engine does concerns its records and the responses. -/

/-- What is published, and what it is published with. -/
structure Desk where
  events : List MarketEvent
  nextRef : OrderId
  now : Nat
  symbol : Symbol

section desk

variable {B : Type} (e : Engine B)

def desk : Desk := ⟨e.marketEvents, e.nextRef, e.now, e.currentSymbol⟩

@[simp] theorem desk_respond (client : Nat) (msg : Ouch.Response) :
    (e.respond client msg).desk = e.desk := by
  simp [desk, marketEvents, respond, push]

@[simp] theorem desk_audit (bad : Bool) (fault : Fault) : (e.audit bad fault).desk = e.desk := by
  unfold audit
  split <;> rfl

@[simp] theorem desk_setSuppress (flag : Bool) : (e.setSuppress flag).desk = e.desk := rfl

@[simp] theorem desk_reduceOpen (id : OrderId) (qty : Qty) :
    (e.reduceOpen id qty).desk = e.desk := by
  unfold reduceOpen
  cases e.orders.lookup id with
  | none => rfl
  | some info =>
    dsimp only
    split <;> exact desk_audit e _ _

@[simp] theorem desk_notify (x : ExecutedEvent) (id : OrderId) (liquidity : Char) :
    (e.notify x id liquidity).desk = e.desk := by
  unfold notify
  cases e.orders.lookup id with
  | none => rfl
  | some info => exact desk_respond e _ _

@[simp] theorem desk_tellCanceled (x : CanceledEvent) : (e.tellCanceled x).desk = e.desk := by
  unfold tellCanceled
  split
  · rfl
  · cases e.orders.lookup x.id with
    | none => rfl
    | some info => exact desk_respond e _ _

@[simp] theorem desk_cancelUnrested (client : Nat) (ref : OrderId) (token : Ouch.Token) (qty : Qty)
    (reason : Char) : (e.cancelUnrested client ref token qty reason).desk = e.desk :=
  desk_respond e _ _

def Desk.publish (d : Desk) (evs : List BookEvent) : Desk :=
  { d with events := d.events ++ evs.map (MarketEvent.mk d.now d.symbol) }

@[simp] theorem desk_publish (ev : BookEvent) : (e.publish ev).desk = e.desk.publish [ev] := by
  simp [desk, Desk.publish, marketEvents, Engine.publish, push]

/-- Every event of a book is published. -/
theorem desk_onEvent (ev : BookEvent) : (e.onEvent ev).desk = e.desk.publish [ev] := by
  cases ev with
  | added x => exact desk_publish e _
  | executed x => simp [onEvent, onExecuted]
  | canceled x =>
    simp only [onEvent, onCanceled]
    split
    · simp
    · cases (((e.publish (.canceled x)).tellCanceled x).orders.lookup x.id) with
      | none => simp
      | some info =>
        dsimp only
        refine (desk_audit _ _ _).trans ?_
        simp
  | replaced x => exact desk_publish e _

@[simp] theorem desk_onEvents (evs : List BookEvent) :
    (e.onEvents evs).desk = e.desk.publish evs := by
  induction evs generalizing e with
  | nil => simp [onEvents, Desk.publish]
  | cons ev evs ih =>
    show ((e.onEvent ev).onEvents evs).desk = _
    rw [ih, desk_onEvent]
    simp [Desk.publish]

end desk

/-- From `d` to `d'` the events `new` were published, and each order in them is
    offered by the command under the next reference. -/
structure Publishes (msg : CommandMsg) (d d' : Desk) (new : List MarketEvent) : Prop where
  events : d'.events = d.events ++ new
  introduced : ∀ m ∈ new, ∀ r, m.ev.introduces = some r → r.id = d.nextRef ∧ msg.Offers r
  nextRef : d.nextRef ≤ d'.nextRef ∧ d'.nextRef ≤ d.nextRef + 1

theorem publishes_events {msg : CommandMsg} {d d' : Desk} (d₀ : Desk) (evs : List BookEvent)
    (hpublish : d' = d₀.publish evs) (hevents : d₀.events = d.events)
    (hnext : d.nextRef ≤ d₀.nextRef ∧ d₀.nextRef ≤ d.nextRef + 1)
    (hoffers : ∀ ev ∈ evs, ∀ r, ev.introduces = some r → r.id = d.nextRef ∧ msg.Offers r) :
    ∃ new, Publishes msg d d' new := by
  subst hpublish
  refine ⟨evs.map (MarketEvent.mk d₀.now d₀.symbol), ?_, fun m hm r hr => ?_, hnext⟩
  · rw [← hevents]
    rfl
  · obtain ⟨ev, hev, rfl⟩ := List.mem_map.mp hm
    exact hoffers ev hev r hr

theorem publishes_nothing {msg : CommandMsg} {d d' : Desk} (hevents : d'.events = d.events)
    (hnext : d.nextRef ≤ d'.nextRef ∧ d'.nextRef ≤ d.nextRef + 1) : ∃ new, Publishes msg d d' new :=
  ⟨[], by simp [hevents], by simp, hnext⟩

section process

variable {e e' : Engine PriorityBook} {client now : Nat}

theorem desk_bookFor (e : Engine PriorityBook) (symbol : Symbol) :
    (e.bookFor symbol).1.desk = e.desk := by
  unfold bookFor
  cases e.books.lookup symbol <;> rfl

@[simp] theorem desk_setBook (e : Engine PriorityBook) (symbol : Symbol) (b : PriorityBook) :
    (e.setBook symbol b).desk = e.desk := rfl

/-- What an accepted order publishes. -/
theorem desk_execute {m : Ouch.EnterOrder} {side : Side} {ref : OrderId}
    (h : e.execute client m side ref = some e') :
    ∃ evs, e'.desk = e.desk.publish evs ∧
      ∀ ev ∈ evs, ∀ r, ev.introduces = some r → r.id = ref ∧ (CommandMsg.enter m).Offers r := by
  obtain ⟨e₁, book, book₁, unmet, e₂, hfor, -, rfl, h⟩ := execute_cases h
  have hbook := desk_bookFor e m.stock
  rw [hfor] at hbook
  rcases h with rfl | ⟨book₂, filled, evs, e₃, -, hioc, rfl, h⟩ |
    ⟨book₂, result, evs, hday, hadd, rfl⟩
  · exact ⟨[], by simp [hbook, Desk.publish], by simp⟩
  · -- an order that executes at once never rests, so nothing it publishes shows a new order
    refine ⟨evs, ?_, fun ev hev r hr => ?_⟩
    · obtain rfl | rfl := h <;> simp [hbook]
    · rw [events_of_returned hioc] at hev
      rw [PriorityBook.introduces_executeIoc hev] at hr
      cases hr
  · refine ⟨evs, by simp [hbook], fun ev hev r hr => ?_⟩
    rw [events_of_returned hadd] at hev
    obtain ⟨hid, hprice, hqty⟩ := PriorityBook.introduces_add hev hr
    exact ⟨hid, (not_or.mp hday).1, (not_or.mp hday).2, hprice, hqty⟩

theorem handleEnter_publishes {m : Ouch.EnterOrder} (h : e.handleEnter client m = some e') :
    ∃ new, Publishes (.enter m) e.desk e'.desk new := by
  obtain ⟨reason, rfl⟩ | ⟨side, -, -, -, hexec⟩ := handleEnter_cases h
  · refine publishes_nothing ?_ ?_ <;> rw [reject, desk_respond]
    exact ⟨Nat.le_refl _, Nat.le_succ _⟩
  · obtain ⟨evs, hdesk, hoffers⟩ := desk_execute hexec
    have haccept : (e.accept client m side).desk =
        { e.desk with nextRef := e.desk.nextRef + 1, symbol := m.stock } := by
      unfold accept
      rw [desk_respond]
      rfl
    rw [haccept] at hdesk
    exact publishes_events _ evs hdesk rfl ⟨Nat.le_succ _, Nat.le_refl _⟩ hoffers

theorem handleCancel_publishes {m : Ouch.CancelOrder} (h : e.handleCancel client m = some e') :
    ∃ new, Publishes (.cancel m) e.desk e'.desk new := by
  obtain rfl | ⟨id, info, e₁, book, book₁, ok, evs, -, -, hfor, hcancel, rfl⟩ :=
    handleCancel_cases h
  · exact publishes_nothing rfl ⟨Nat.le_refl _, Nat.le_succ _⟩
  · have hbook := desk_bookFor (e.setSymbol info.symbol) info.symbol
    rw [hfor] at hbook
    refine publishes_events (e.setSymbol info.symbol).desk evs ?_ rfl
      ⟨Nat.le_refl _, Nat.le_succ _⟩ ?_
    · rw [desk_onEvents, desk_setBook, hbook]
    · intro ev hev r hr
      rw [events_of_returned hcancel] at hev
      rw [PriorityBook.introduces_cancel hev] at hr
      cases hr

theorem handleReplace_publishes {m : Ouch.ReplaceOrder} (h : e.handleReplace client m = some e') :
    ∃ new, Publishes (.replace m) e.desk e'.desk new := by
  obtain rfl | ⟨oldRef, old, e₁, book, book₁, ok, evs, -, -, -, -, -, hfor, hreplace, rfl⟩ :=
    handleReplace_cases h
  · exact publishes_nothing rfl ⟨Nat.le_refl _, Nat.le_succ _⟩
  · have hswap : ((e.swap client m oldRef old).setSuppress true).desk =
        { e.desk with nextRef := e.desk.nextRef + 1, symbol := old.symbol } := by
      simp [desk, swap, setSuppress, marketEvents, respond, push]
    have hbook := desk_bookFor ((e.swap client m oldRef old).setSuppress true) old.symbol
    rw [hfor] at hbook
    refine publishes_events { e.desk with nextRef := e.desk.nextRef + 1, symbol := old.symbol } evs
      ?_ rfl ⟨Nat.le_succ _, Nat.le_refl _⟩ ?_
    · rw [desk_setSuppress, desk_audit, desk_onEvents, desk_setBook, hbook, hswap]
    · intro ev hev r hr
      rw [events_of_returned hreplace] at hev
      exact PriorityBook.introduces_replace hev hr

/-- One command. -/
theorem process_publishes {cmd : Command} (h : e.process now cmd = some e') :
    ∃ new, Publishes cmd.msg e.desk e'.desk new := by
  have hnow : (e.setNow now).desk.events = e.desk.events ∧ (e.setNow now).desk.nextRef =
      e.desk.nextRef :=
    ⟨rfl, rfl⟩
  unfold process at h
  have hall : ∃ new, Publishes cmd.msg (e.setNow now).desk e'.desk new := by
    cases hm : cmd.msg with
    | enter m => rw [hm] at h; exact handleEnter_publishes h
    | cancel m => rw [hm] at h; exact handleCancel_publishes h
    | replace m => rw [hm] at h; exact handleReplace_publishes h
  obtain ⟨new, hpub⟩ := hall
  exact ⟨new, hpub.events, hpub.introduced, hpub.nextRef⟩

end process

/-! ## Section 4: The tape of the engine -/

theorem Sim.desk {e : Engine FastBook} {a : Engine PriorityBook} (h : Sim e a) :
    e.desk = a.desk := by
  obtain ⟨books, rfl, -⟩ := h
  rfl

/-- What a run of `cmds` published: every order in it was offered by one of the
    commands and has the number of one of them. -/
structure Charted (cmds : List (Nat × Command)) (e : Engine FastBook) : Prop where
  introduced : ∀ m ∈ e.marketEvents, ∀ r, m.ev.introduces = some r →
    r.id ≤ cmds.length ∧ ∃ c ∈ cmds, c.2.msg.Offers r
  nextRef : e.nextRef ≤ cmds.length + 1

theorem Charted.process {cmds : List (Nat × Command)} {e e' : Engine FastBook} (h : Charted cmds e)
    {c : Nat × Command} {new : List MarketEvent} (hp : Publishes c.2.msg e.desk e'.desk new) :
    Charted (cmds ++ [c]) e' := by
  have hevents : e'.marketEvents = e.marketEvents ++ new := hp.events
  have hnext : e'.nextRef ≤ e.nextRef + 1 := hp.nextRef.2
  refine ⟨fun m hm r hr => ?_, ?_⟩
  · rw [hevents] at hm
    rcases List.mem_append.mp hm with hm | hm
    · obtain ⟨hid, c', hc', hoffers⟩ := h.introduced m hm r hr
      exact ⟨by simp; lia, c', by simp [hc'], hoffers⟩
    · obtain ⟨hid, hoffers⟩ := hp.introduced m hm r hr
      have hid' : r.id = e.nextRef := hid
      have := h.nextRef
      exact ⟨by simp; lia, c, by simp, hoffers⟩
  · have := h.nextRef
    simp
    lia

/-- One command of the engine of the source. -/
theorem Realizes.publishes {e : Engine FastBook} {v : Venue} (h : Realizes e v) (hinv : Inv v none)
    (now : Nat) (cmd : Command) :
    ∃ e' v' new, e.process now cmd = some e' ∧ Commands now cmd.clientId v v' ∧ Realizes e' v' ∧
      Publishes cmd.msg e.desk e'.desk new := by
  obtain ⟨a, hsim, hr⟩ := h
  obtain ⟨e', a', he, ha, hsim'⟩ := hsim.process now cmd
  obtain ⟨a'', v', ha', hcmd, hr'⟩ := hr.process hinv now cmd
  cases ha.symm.trans ha'
  obtain ⟨new, hpub⟩ := process_publishes ha
  rw [← hsim.desk, ← hsim'.desk] at hpub
  exact ⟨e', v', new, he, hcmd, ⟨a', hsim', hr'⟩, hpub⟩

theorem run_snoc {B : Type} [Book B] (e : Engine B) (cmds : List (Nat × Command))
    (c : Nat × Command) : e.run (cmds ++ [c]) = (e.run cmds).bind (fun e => e.process c.1 c.2) := by
  rw [Engine.run, List.foldlM_append]
  show (e.run cmds).bind _ = _
  cases e.run cmds with
  | none => rfl
  | some e₁ => simp

/-- **The tape of a run.** The engine answers every sequence of commands, and its
    market events are a tape that ends in its books. -/
theorem run_tape (cmds : List (Nat × Command)) :
    ∃ e v, Engine.run ({} : Engine FastBook) cmds = some e ∧ Run {} v ∧ Realizes e v ∧
      Tape e.marketEvents v.book ∧ Charted cmds e := by
  induction cmds using List.reverseRecOn with
  | nil => exact ⟨{}, {}, rfl, .nil _, realizes_fresh, .nil, ⟨by simp [marketEvents], by simp⟩⟩
  | append_singleton cmds c ih =>
    obtain ⟨e, v, hrun, hv, hreal, htape, hchart⟩ := ih
    have hinv := hv.inv inv_fresh
    obtain ⟨e', v', new, he, hcmd, hreal', hpub⟩ := hreal.publishes hinv c.1 c.2
    refine ⟨e', v', ?_, .snoc c.1 c.2.clientId hv hcmd, hreal', ?_, hchart.process hpub⟩
    · rw [run_snoc, hrun]
      exact he
    · -- the books and the log change step by step
      rw [marketEvents, hreal.records.out] at htape
      rw [marketEvents, hreal'.records.out]
      exact (hinv.steps (P := fun u _ => Tape (marketEventsOf u.log) u.book) htape
        (fun hu ht hs => hu.tape ht hs) hcmd).2

/-- A longer run publishes more. -/
theorem run_prefix {cmds more : List (Nat × Command)} {e e' : Engine FastBook}
    (h : Engine.run ({} : Engine FastBook) cmds = some e)
    (h' : Engine.run ({} : Engine FastBook) (cmds ++ more) = some e') :
    e.marketEvents <+: e'.marketEvents := by
  induction more using List.reverseRecOn generalizing e' with
  | nil =>
    rw [List.append_nil, h] at h'
    cases h'
    exact List.prefix_refl _
  | append_singleton more c ih =>
    obtain ⟨e₁, v₁, hrun, hv, hreal, -, -⟩ := run_tape (cmds ++ more)
    obtain ⟨e₂, v₂, new, he, -, -, hpub⟩ := hreal.publishes (hv.inv inv_fresh) c.1 c.2
    rw [← List.append_assoc, run_snoc, hrun, Option.bind_some, he] at h'
    cases h'
    have hevents : e'.marketEvents = e₁.marketEvents ++ new := hpub.events
    rw [hevents]
    exact (ih hrun).trans (List.prefix_append _ _)

end Engine

end MatchingEngine
