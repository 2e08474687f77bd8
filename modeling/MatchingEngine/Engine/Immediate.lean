import MatchingEngine.Engine.MinQuantity
import MatchingEngine.Engine.Origins

/-! # Orders that are not to rest

    A market order and an order that is immediate or cancel are gone when their
    command is done. They have executed within their limit, what is canceled of
    them found nothing more to execute against, and the other orders have
    changed by these executions only (`Passed`).

    A market order has the most extreme limit that the type of prices allows, so
    that it leaves an empty side.
-/

namespace MatchingEngine

open Venue

namespace Engine

/-! ## Section 1: What the order leaves behind -/

/-- The order `ref` with the token of `key` is nowhere. -/
structure Gone (ref : OrderId) (key : TokenKey) (e : Engine FastBook) : Prop where
  order : e.orders.lookup ref = none
  token : e.liveTokens.lookup key = none
  books : ∀ symbol snap s, e.bookSnapshot symbol = some snap →
    ∀ o ∈ PriorityBook.entries snap s, o.id ≠ ref

/-- The orders other than `ref` change by the executions `xs` of a symbol. -/
structure OnlyFilled (symbol : Symbol) (ref : OrderId) (xs : List ExecutedEvent)
    (e e' : Engine FastBook) : Prop where
  orders : ∀ id, id ≠ ref → e'.orders.lookup id = xs.foldl (fillRecord id) (e.orders.lookup id)
  tokens : ∀ key id, id ≠ ref → (e'.liveTokens.lookup key = some id ↔
    e.liveTokens.lookup key = some id ∧ (e'.orders.lookup id).isSome)
  book : ∃ snap snap', e.bookSnapshot symbol = some snap ∧ e'.bookSnapshot symbol = some snap' ∧
    ∀ s, PriorityBook.entries snap' s = xs.foldl fillSide (PriorityBook.entries snap s)
  books : ∀ symbol', symbol' ≠ symbol → e'.bookSnapshot symbol' = e.bookSnapshot symbol'

/-- How an order passes that is not to rest: it leaves the executions `xs`, and
    `left` of its shares are canceled. -/
structure Passed (now client : Nat) (m : Ouch.EnterOrder) (side : Side) (e e' : Engine FastBook)
    (new : List Output) (xs : List ExecutedEvent) (left : Qty) : Prop where
  /-- It is accepted, the executions are reported, and the remainder is canceled. -/
  told : ∃ body, new = [.response ⟨client, .accepted (acceptedMsg now e.nextRef side m)⟩] ++ body ++
      (if left = 0 then [] else [.response ⟨client, .canceled ⟨now, m.token, left, ch 'I'⟩⟩]) ∧
    marketEventsOf body = xs.map (fun x => ⟨now, m.stock, .executed x⟩) ∧
    ∀ r ∈ responsesOf body, ∃ x, r.msg = .executed x
  shares : (xs.map (fun x => x.qty.toNat)).sum + left.toNat = m.shares.toNat
  within : ∀ x ∈ xs, x.aggressorId = e.nextRef ∧
    (m.price ≠ Ouch.kMarketPrice → crosses side m.price x.price)
  exhausted : left ≠ 0 → ∀ snap, e'.bookSnapshot m.stock = some snap →
    ∀ o ∈ PriorityBook.entries snap side.opposite, ¬ crosses side (limitFor m side) o.price
  gone : Gone e.nextRef (tokenKey client m.token) e'
  others : OnlyFilled m.stock e.nextRef xs e e'

section passed

variable {now client : Nat} {m : Ouch.EnterOrder} {side : Side} {e e' : Engine FastBook}
  {v v₁ v' : Venue} {f' : Flight} {es : List ExecutedEvent} (h : Realizes e v) (hinv : Inv v none)
  (hacc : e.Accepts client m side)
  (hexec : Executes now (v.accepted now client m side) (flightOf v.nextRef m side) es v₁ f')
  (h' : Realizes e' v') (hinv' : Inv v' none) (hbook : v'.book = v₁.book)
  (horders : v'.orders = Function.update v₁.orders v.nextRef none)

include h hinv hacc hexec horders

/-- A record after the command is one from before it. -/
theorem record_before {id : OrderId} {info' : OrderInfo} (hi : v'.orders id = some info') :
    id ≠ v.nextRef ∧ ∃ info, v.orders id = some info ∧ info.key = info'.key := by
  have hinv₁ := h.inv_accepted hinv now hacc
  have hid : id ≠ v.nextRef := by
    rintro rfl
    rw [horders, Function.update_self] at hi
    cases hi
  rw [horders, Function.update_of_ne hid] at hi
  -- executions change the shares in a record and nothing else
  obtain ⟨hinv₂, hkept⟩ := hinv₁.steps_kept (hexec.steps client)
  have hlt : id < (v.accepted now client m side).nextRef := by
    rw [← hexec.same.2.1]
    exact hinv₂.keys.fresh hi
  obtain ⟨info, hi', heq⟩ := hkept.record hlt hi
  rw [orders_accepted, Function.update_of_ne hid] at hi'
  exact ⟨hid, info, hi', by rw [heq]; rfl⟩

include h' hinv'

theorem gone_of_executes : Gone e.nextRef (tokenKey client m.token) e' := by
  have hgone : v'.orders e.nextRef = none := by
    rw [h.records.nextRef, horders, Function.update_self]
  constructor
  · rw [h'.records.orders, hgone]
  · -- no other live order has the token, since it was not used before
    by_contra hlive
    obtain ⟨id, hid⟩ := Option.ne_none_iff_exists'.mp hlive
    obtain ⟨info', hi', hk'⟩ := h'.records.live.mp hid
    obtain ⟨-, info, hi, hk⟩ := record_before h hinv hacc hexec horders hi'
    have hused := hinv.keys.used hi
    rw [hk, hk', ← h.records.used] at hused
    have hunused := hacc.token
    simp [tokenUsed, hused] at hunused
  · intro symbol snap s hsnap o ho hid
    cases (h'.bookSnapshot symbol).symm.trans hsnap
    rw [(hinv'.mirror.wf symbol).entries_snapshot] at ho
    obtain ⟨info, hi, -⟩ := hinv'.mirror.resting ho
    rw [hid, hgone] at hi
    cases hi

include hbook

theorem onlyFilled_of_executes : OnlyFilled m.stock e.nextRef es e e' := by
  have hinv₁ := h.inv_accepted hinv now hacc
  constructor
  · intro id hid
    rw [h.records.nextRef] at hid
    rw [h'.records.orders, h.records.orders, horders, Function.update_of_ne hid, hexec.orders hid,
      orders_accepted, Function.update_of_ne hid]
  · intro key id _
    rw [h'.records.live, h.records.live, h'.records.orders]
    constructor
    · rintro ⟨info', hi', rfl⟩
      obtain ⟨-, info, hi, hk⟩ := record_before h hinv hacc hexec horders hi'
      exact ⟨⟨info, hi, hk⟩, by rw [hi']; rfl⟩
    · rintro ⟨⟨info, hi, rfl⟩, hsome⟩
      obtain ⟨info', hi'⟩ := Option.isSome_iff_exists.mp hsome
      obtain ⟨-, info₀, hi₀, hk⟩ := record_before h hinv hacc hexec horders hi'
      cases hi.symm.trans hi₀
      exact ⟨info', hi', hk.symm⟩
  · refine ⟨_, _, h.bookSnapshot m.stock, h'.bookSnapshot m.stock, fun s => ?_⟩
    rw [(hinv'.mirror.wf m.stock).entries_snapshot, (hinv.mirror.wf m.stock).entries_snapshot,
      hbook]
    exact hexec.sides hinv₁ s
  · intro symbol hs
    rw [h'.bookSnapshot, h.bookSnapshot, hbook, hexec.same.2.2 symbol hs]
    rfl

/-- The end of an order that has executed as far as it can. -/
theorem passed_of_executes (hdone : f'.left ≠ 0 → Exhausted v₁ f')
    (hlog : v'.log = v₁.log ++
      (if f'.left = 0 then [] else [.response ⟨client, .canceled ⟨now, m.token, f'.left, ch 'I'⟩⟩]))
    {new : List Output} (hnew : e'.out = e.out ++ new) :
    Passed now client m side e e' new es f'.left := by
  refine ⟨?_, hexec.shares, ?_, ?_, gone_of_executes h hinv hacc hexec h' hinv' horders,
    onlyFilled_of_executes h hinv hacc hexec h' hinv' hbook horders⟩
  · obtain ⟨body, hbody, hmarket, htold⟩ := hexec.log
    refine ⟨body, ?_, hmarket, htold⟩
    apply (List.append_right_inj e.out).mp
    rw [← hnew, h'.records.out, hlog, hbody, h.records.out, h.records.nextRef]
    simp only [List.append_assoc]
    exact List.append_assoc v.log [_] _
  · intro x hx
    obtain ⟨hid, hcross⟩ := hexec.within x hx
    refine ⟨hid.trans h.records.nextRef.symm, fun hlimit => ?_⟩
    -- the limit of a limit order is its price
    have hprice : limitFor m side = m.price := if_neg hlimit
    rw [← hprice]
    exact hcross
  · intro hleft snap hsnap o ho
    cases (h'.bookSnapshot m.stock).symm.trans hsnap
    rw [(hinv'.mirror.wf m.stock).entries_snapshot, hbook] at ho
    have hex := hdone hleft
    rw [hexec.flight] at hex
    exact hex o ho

end passed

/-! ## Section 2: Commands -/

/-- An order that is not to rest is killed or passes. -/
theorem Realizes.immediate {client : Nat} {m : Ouch.EnterOrder} {side : Side} {e : Engine FastBook}
    {v : Venue} (h : Realizes e v) (hinv : Inv v none) (now : Nat) (hacc : e.Accepts client m side)
    (himm : Immediate m) :
    ∃ e' new, e.process now ⟨client, .enter m⟩ = some e' ∧ e'.out = e.out ++ new ∧
      (KilledByMin new ∨ ∃ xs left, Passed now client m side e e' new xs left) := by
  have hinv₁ := h.inv_accepted hinv now hacc
  obtain ⟨e', v', hprocess, hout, h'⟩ := h.enter hinv now hacc
  have hinv' := (hinv₁.steps_kept hout.steps).1
  obtain ⟨e₂, new, hprocess₂, hnew, hkilled⟩ := h.killed_iff hinv now hacc
  cases hprocess.symm.trans hprocess₂
  refine ⟨e', new, hprocess, hnew, ?_⟩
  cases hout with
  | killed unmet =>
    exact Or.inl (hkilled.mpr ((unmet_iff now client (hinv.mirror.wf m.stock)).mp unmet))
  | @filled v₁ f' es met immediate executes left =>
    refine Or.inr ⟨es, f'.left, passed_of_executes h hinv hacc executes h' hinv' rfl ?_ ?_ ?_ hnew⟩
    · -- the record went with the last share
      have hgone := (executes.inv hinv₁).mirror.landed f' rfl left
      rw [executes.flight] at hgone
      rw [← hgone]
      exact (Function.update_eq_self _ _).symm
    · exact fun hne => absurd left hne
    · rw [if_pos left, List.append_nil]
  | @canceled v₁ f' es info met immediate executes left done live owner =>
    refine Or.inr ⟨es, f'.left,
      passed_of_executes h hinv hacc executes h' hinv' rfl ?_ (fun _ => done) ?_ hnew⟩
    · have hid : f'.id = v.nextRef := by rw [executes.flight]
      rw [← hid]
      rfl
    · rw [if_neg left, ← owner.1, ← owner.2]
      rfl
  | entered met day enters => exact absurd himm day

/-- Every price that rests was named by a command. -/
theorem resting_priced {cmds : List (Nat × Command)} {e : Engine FastBook}
    (hrun : Engine.run ({} : Engine FastBook) cmds = some e) {symbol : Symbol} {snap : BookSnapshot}
    (hsnap : e.bookSnapshot symbol = some snap) {s : Side} {o : Resting}
    (ho : o ∈ PriorityBook.entries snap s) :
    0 < o.price ∧ ∃ c ∈ cmds, c.2.msg.price = some o.price := by
  obtain ⟨e', v, hrun', hv, hreal, htape, hchart⟩ := run_tape cmds
  cases hrun.symm.trans hrun'
  have hwf := (hv.inv inv_fresh).mirror.wf symbol
  cases (hreal.bookSnapshot symbol).symm.trans hsnap
  rw [hwf.entries_snapshot] at ho
  obtain ⟨ev, hev, -, r, hr, -, hprice, -⟩ := htape.introduced ho
  obtain ⟨-, c, hc, hoffers⟩ := hchart.introduced ev hev r hr
  exact ⟨(hwf.sides s).price_pos o ho, c, hc, by rw [hoffers.price, hprice]⟩

/-- Every price of 64 bits is within the limit of a market order. -/
theorem crosses_market {m : Ouch.EnterOrder} (hm : m.price = Ouch.kMarketPrice) (side : Side)
    {p : Price} (hpos : 0 < p) (hlt : p < 2 ^ 63) : crosses side (limitFor m side) p := by
  rw [limitFor, if_pos hm]
  -- the largest price of 64 bits, or 1
  cases side with
  | buy =>
    show p ≤ 2 ^ 63 - 1
    lia
  | sell =>
    show 1 ≤ p
    lia

/-- **Immediate orders never rest** and fill as far as possible. -/
theorem immediate_orders_pass (cmds : List (Nat × Command)) (now client : Nat) (m : Ouch.EnterOrder)
    (side : Side) :
    ∃ e, Engine.run ({} : Engine FastBook) cmds = some e ∧
      (e.Accepts client m side → m.tif = 0 ∨ m.price = Ouch.kMarketPrice →
        ∃ e' new, e.process now ⟨client, .enter m⟩ = some e' ∧ e'.out = e.out ++ new ∧
          (¬ KilledByMin new → ∃ xs left, Passed now client m side e e' new xs left ∧
            -- a market order empties the opposite side; prices have 64 bits
            (m.price = Ouch.kMarketPrice → (∀ c ∈ cmds, ∀ p, c.2.msg.price = some p → p < 2 ^ 63) →
              left ≠ 0 → ∀ snap, e'.bookSnapshot m.stock = some snap →
                PriorityBook.entries snap side.opposite = []))) := by
  obtain ⟨e, v, hrun, hv, hreal⟩ := realizes_fresh.run inv_fresh cmds
  refine ⟨e, hrun, fun hacc himm => ?_⟩
  obtain ⟨e', new, hprocess, hout, hcases⟩ :=
    hreal.immediate (hv.inv inv_fresh) now hacc (Or.symm himm)
  refine ⟨e', new, hprocess, hout, fun hnot => ?_⟩
  obtain ⟨xs, left, hpassed⟩ := hcases.resolve_left hnot
  refine ⟨xs, left, hpassed, fun hm hprices hleft snap hsnap => ?_⟩
  have hrun' : Engine.run ({} : Engine FastBook) (cmds ++ [(now, ⟨client, .enter m⟩)]) =
      some e' := by
    rw [run_snoc, hrun]
    exact hprocess
  apply List.eq_nil_iff_forall_not_mem.mpr
  intro o ho
  apply hpassed.exhausted hleft snap hsnap o ho
  obtain ⟨hpos, c, hc, hprice⟩ := resting_priced hrun' hsnap ho
  apply crosses_market hm side hpos
  rcases List.mem_append.mp hc with hc | hc
  · exact hprices c hc _ hprice
  · -- the price of the market order itself
    cases List.mem_singleton.mp hc
    have hown : m.price = o.price := Option.some.inj hprice
    rw [← hown, hm]
    decide

end Engine

end MatchingEngine
