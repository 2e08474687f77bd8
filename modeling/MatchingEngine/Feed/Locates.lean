import MatchingEngine.Feed.Publisher

/-! # Locate codes

    The publisher gives every symbol a locate code when it first appears: the number
    of symbols so far, in 16 bits. Clients choose the symbols, so that their number is
    not bounded. The codes are then those of `Numbering`, with a coding that is
    injective on 65535 symbols only. The next symbol gets the code 0, and the one
    behind it the code of the first (`locates_identify_iff`, `locate_collision`).
-/

namespace MatchingEngine

open Numbering

def Itch.Message.header : Itch.Message → Itch.Header
  | .systemEvent m => m.toHeader
  | .stockDirectory m => m.toHeader
  | .tradingAction m => m.toHeader
  | .addOrder m => m.toHeader
  | .addOrderMpid m => m.add.toHeader
  | .orderExecuted m => m.toHeader
  | .orderExecutedWithPrice m => m.exec.toHeader
  | .orderCancel m => m.toHeader
  | .orderDelete m => m.toHeader
  | .orderReplace m => m.toHeader
  | .trade m => m.toHeader

namespace Feed

open Mold

variable {evs old : List MarketEvent} {p q : Publisher}
  {locates : Finmap (fun _ : Symbol => UInt16)} {ms : List Payload} {i n : Nat}

/-! ## Section 1: The table after a run -/

theorem addEvents_numbered
    (hp : Numbering.Numbered locateCode p.locates (old.map MarketEvent.symbol))
    (h : evs.foldlM Publisher.addEvent p = some q) :
    Numbering.Numbered locateCode q.locates ((old ++ evs).map MarketEvent.symbol) := by
  induction evs generalizing p old with
  | nil =>
    cases h
    rw [List.append_nil]
    exact hp
  | cons ev evs ih =>
    obtain ⟨m, hadd, -⟩ := addEvent_spec p ev
    rw [List.foldlM_cons, hadd] at h
    have hone := hp.assign ev.symbol
    rw [← List.map_singleton (f := MarketEvent.symbol), ← List.map_append] at hone
    have hrest := ih hone h
    rwa [List.append_assoc] at hrest

theorem publish_numbered (hp : Numbering.Numbered locateCode p.locates (old.map MarketEvent.symbol))
    (h : p.publish evs = some q) :
    Numbering.Numbered locateCode q.locates ((old ++ evs).map MarketEvent.symbol) := by
  obtain ⟨r, hr, hq⟩ := Option.bind_eq_some_iff.mp h
  have hnumbered := addEvents_numbered hp hr
  cases hq
  rw [sendReady_eq]
  exact hnumbered

theorem turns_numbered {drains : List (List MarketEvent)}
    (hp : Numbering.Numbered locateCode p.locates (old.map MarketEvent.symbol))
    (h : drains.foldlM Publisher.turn p = some q) :
    Numbering.Numbered locateCode q.locates ((old ++ drains.flatten).map MarketEvent.symbol) := by
  induction drains generalizing p old with
  | nil =>
    cases h
    rw [List.flatten_nil, List.append_nil]
    exact hp
  | cons evs drains ih =>
    obtain ⟨r, hr, h⟩ := Option.bind_eq_some_iff.mp h
    have hturn : Numbering.Numbered locateCode r.locates ((old ++ evs).map MarketEvent.symbol) := by
      cases evs with
      | nil =>
        -- a heartbeat
        cases hr
        rw [List.append_nil]
        exact hp
      | cons ev evs => exact publish_numbered hp hr
    rw [List.flatten_cons, ← List.append_assoc]
    exact ih hturn h

/-- The table numbers the symbols of all events. -/
theorem run_numbered {session : Session} {mtu : Nat} {drains : List (List MarketEvent)}
    {last : List MarketEvent} (h : Publisher.run session mtu drains last = some p) :
    Numbering.Numbered locateCode p.locates ((drains.flatten ++ last).map MarketEvent.symbol) := by
  obtain ⟨q, hq, h⟩ := Option.bind_eq_some_iff.mp h
  obtain ⟨r, hr, h⟩ := Option.bind_eq_some_iff.mp h
  have hempty : Numbering.Numbered locateCode ∅ (([] : List MarketEvent).map MarketEvent.symbol) :=
    numbered_empty
  have hnumbered := publish_numbered (turns_numbered hempty hq) hr
  cases h
  exact hnumbered

/-! ## Section 2: The codes on the wire -/

/-- The locate code in the header of a published message. -/
def stockLocate (m : Payload) : Option UInt16 :=
  (Itch.decode m).join.map (fun msg => msg.header.stockLocate)

theorem stockLocate_onWire (ev : MarketEvent) (locate : UInt16) :
    (itchMessage ev locate).onWire.header.stockLocate = locate := by
  rcases ev with ⟨ts, symbol, e | e | ⟨id, qty, removed⟩ | e⟩
  · rfl
  · rfl
  · cases removed with
    | false => rfl
    | true => rfl
  · rfl

theorem CarriedUnder.stockLocate_eq {m : Payload} {ev : MarketEvent}
    (h : CarriedUnder locates m ev) : stockLocate m = locates.lookup ev.symbol := by
  obtain ⟨-, locate, hlocate, hdecode⟩ := h
  rw [stockLocate, hdecode, hlocate, Option.join_some, Option.map_some, stockLocate_onWire]

/-- Message by message, the code is that of the event. -/
theorem stockLocate_getElem (h : List.Forall₂ (CarriedUnder locates) ms evs) {m : Payload}
    {ev : MarketEvent} (hm : ms[i]? = some m) (hev : evs[i]? = some ev) :
    stockLocate m = locates.lookup ev.symbol := by
  induction h generalizing i with
  | nil => cases hm
  | cons hcarried _ ih =>
    cases i with
    | zero =>
      cases hm
      cases hev
      exact hcarried.stockLocate_eq
    | succ i => exact ih hm hev

/-- **The codes identify the symbols**: no code is 0, and two messages have the same
    code if and only if their events have the same symbol. -/
def Identified (ms : List Payload) (evs : List MarketEvent) : Prop :=
  (∀ m ∈ ms, ∃ locate, stockLocate m = some locate ∧ locate ≠ 0) ∧
  ∀ (i j : Nat) (m m' : Payload) (ev ev' : MarketEvent),
    ms[i]? = some m → ms[j]? = some m' → evs[i]? = some ev → evs[j]? = some ev' →
    (stockLocate m = stockLocate m' ↔ ev.symbol = ev'.symbol)

/-! ## Section 3: How many symbols can be told apart -/

theorem toNat_locateCode (h : n + 1 < 2 ^ 16) : (locateCode n).toNat = n + 1 := by
  rw [locateCode, UInt16.toNat_ofNat', Nat.mod_eq_of_lt h]

theorem locateCode_injOn (h : n < 2 ^ 16) : Set.InjOn locateCode (Set.Iio n) := by
  intro i hi j hj hcode
  have hi' : i < n := hi
  have hj' : j < n := hj
  have hnat := congrArg UInt16.toNat hcode
  rw [toNat_locateCode (by omega), toNat_locateCode (by omega)] at hnat
  omega

theorem identified_iff (h : List.Forall₂ (CarriedUnder locates) ms evs)
    (hnumbered : Numbering.Numbered locateCode locates (evs.map MarketEvent.symbol)) :
    Identified ms evs ↔ (evs.map MarketEvent.symbol).toFinset.card < 2 ^ 16 := by
  have hlength := h.length_eq
  constructor
  · rintro ⟨hnonzero, -⟩
    by_contra hmany
    -- the symbol that comes after 65535 others
    rw [← length_firsts] at hmany
    have hlong : 65535 < (firsts (evs.map MarketEvent.symbol)).length := by omega
    have hzero := hnumbered.lookup.mpr ⟨65535, List.getElem?_eq_getElem hlong, rfl⟩
    obtain ⟨ev, hev, hsymbol⟩ := List.mem_map.mp (mem_firsts.mp (List.getElem_mem hlong))
    obtain ⟨i, hi, rfl⟩ := List.getElem_of_mem hev
    have hi' : i < ms.length := by omega
    obtain ⟨locate, hlocate, hne⟩ := hnonzero ms[i] (List.getElem_mem hi')
    rw [stockLocate_getElem h (List.getElem?_eq_getElem hi') (List.getElem?_eq_getElem hi), hsymbol,
      hzero] at hlocate
    exact hne (Option.some.inj hlocate).symm
  · intro hfew
    constructor
    · intro m hm
      obtain ⟨i, hi, rfl⟩ := List.getElem_of_mem hm
      have hi' : i < evs.length := by omega
      have hcode := stockLocate_getElem h (List.getElem?_eq_getElem hi)
        (List.getElem?_eq_getElem hi')
      obtain ⟨locate, hlocate⟩ := hnumbered.exists_lookup.mpr
        (List.mem_map_of_mem (f := MarketEvent.symbol) (List.getElem_mem hi'))
      refine ⟨locate, hcode.trans hlocate, ?_⟩
      obtain ⟨k, hk, rfl⟩ := hnumbered.lookup.mp hlocate
      have hk' := (List.getElem?_eq_some_iff.mp hk).1
      rw [length_firsts] at hk'
      intro hzero
      have hnat := congrArg UInt16.toNat hzero
      rw [toNat_locateCode (by omega)] at hnat
      exact absurd hnat (Nat.succ_ne_zero k)
    · intro i j m m' ev ev' hm hm' hev hev'
      rw [stockLocate_getElem h hm hev, stockLocate_getElem h hm' hev']
      constructor
      · intro hsame
        obtain ⟨locate, hlocate⟩ := hnumbered.exists_lookup.mpr
          (List.mem_map_of_mem (f := MarketEvent.symbol) (List.mem_of_getElem? hev))
        exact hnumbered.eq_of_lookup_eq (locateCode_injOn hfew) hlocate (hsame.symm.trans hlocate)
      · intro hsymbol
        rw [hsymbol]

/-- **Locate codes identify symbols as long as there are fewer than 65536.** What a run
    publishes is one message for each event, and the codes of the messages identify
    the symbols of the events exactly when these are at most 65535 different ones. -/
theorem locates_identify_iff (session : Session) (mtu : Nat) (drains : List (List MarketEvent))
    (last : List MarketEvent) :
    ∃ p fs, Publisher.run session mtu drains last = some p ∧ p.sent = broadcast session fs ∧
      fs.flatten.length = (drains.flatten ++ last).length ∧
      (Identified fs.flatten (drains.flatten ++ last) ↔
        ((drains.flatten ++ last).map MarketEvent.symbol).toFinset.card < 2 ^ 16) := by
  obtain ⟨p, fs, hrun, hsent, -, -, -, hlabels⟩ := run_spec session mtu drains last
  exact ⟨p, fs, hrun, hsent, hlabels.length_eq, identified_iff hlabels (run_numbered hrun)⟩

/-! ## Section 4: One symbol too many -/

/-- A symbol of its own for every number. -/
def symbolOf (n : Nat) : Symbol := ⟨(Bytes.toBe 8 n).toArray, by simp⟩

/-- An order in each of `n` symbols. -/
def ordersIn (n : Nat) : List MarketEvent :=
  (List.range n).map (fun i => ⟨0, symbolOf i, .added ⟨i + 1, .buy, 10000, 100⟩⟩)

theorem symbolOf_inj {j : Nat} (hi : i < 256 ^ 8) (hj : j < 256 ^ 8) (h : symbolOf i = symbolOf j) :
    i = j := by
  have hbytes : Bytes.toBe 8 i = Bytes.toBe 8 j := by
    have harray := congrArg Vector.toList h
    simpa [symbolOf] using harray
  have hvalue := congrArg Bytes.ofBe hbytes
  rwa [Bytes.ofBe_toBe, Bytes.ofBe_toBe, Nat.mod_eq_of_lt hi, Nat.mod_eq_of_lt hj] at hvalue

theorem nodup_ordersIn (h : n ≤ 256 ^ 8) : ((ordersIn n).map MarketEvent.symbol).Nodup := by
  rw [ordersIn, List.map_map]
  apply List.Nodup.map_on
  · intro i hi j hj hsymbol
    exact symbolOf_inj (Nat.lt_of_lt_of_le (List.mem_range.mp hi) h)
      (Nat.lt_of_lt_of_le (List.mem_range.mp hj) h) hsymbol
  · exact List.nodup_range

/-- The order in symbol `i` is published under code `i + 1`, in 16 bits. -/
theorem ordersIn_locates (hn : n ≤ 256 ^ 8)
    (h : List.Forall₂ (CarriedUnder locates) ms (ordersIn n))
    (hnumbered : Numbering.Numbered locateCode locates ((ordersIn n).map MarketEvent.symbol))
    (hi : i < n) : ∃ m, ms[i]? = some m ∧ stockLocate m = some (locateCode i) := by
  have hget : (ordersIn n)[i]? = some ⟨0, symbolOf i, .added ⟨i + 1, .buy, 10000, 100⟩⟩ := by
    rw [ordersIn, List.getElem?_map, List.getElem?_range hi]
    rfl
  have hi' : i < ms.length := by
    rw [h.length_eq]
    exact (List.getElem?_eq_some_iff.mp hget).1
  refine ⟨ms[i], List.getElem?_eq_getElem hi', ?_⟩
  rw [stockLocate_getElem h (List.getElem?_eq_getElem hi') hget, hnumbered.lookup,
    firsts_of_nodup (nodup_ordersIn hn)]
  refine ⟨i, ?_, rfl⟩
  rw [List.getElem?_map, hget]
  rfl

/-- Orders in 65537 symbols: the last but one gets the code 0, and the last one the code of
    the first. -/
theorem locate_collision :
    ∃ p fs first zero last, Publisher.run (Vector.replicate 10 0) 1400 [ordersIn 65537] [] =
      some p ∧ p.sent = broadcast (Vector.replicate 10 0) fs ∧
      fs.flatten[0]? = some first ∧ fs.flatten[65535]? = some zero ∧
        fs.flatten[65536]? = some last ∧
      stockLocate zero = some 0 ∧ stockLocate last = stockLocate first ∧
        symbolOf 65536 ≠ symbolOf 0 := by
  obtain ⟨p, fs, hrun, hsent, -, -, -, hlabels⟩ :=
    run_spec (Vector.replicate 10 0) 1400 [ordersIn 65537] []
  have hnumbered := run_numbered hrun
  rw [List.flatten_singleton, List.append_nil] at hlabels hnumbered
  have hcode := fun {i} => ordersIn_locates (i := i) (by decide) hlabels hnumbered
  obtain ⟨first, hfirst, hone⟩ := hcode (i := 0) (by decide)
  obtain ⟨zero, hzero, hcode₀⟩ := hcode (i := 65535) (by decide)
  obtain ⟨last, hlast, hagain⟩ := hcode (i := 65536) (by decide)
  refine ⟨p, fs, first, zero, last, hrun, hsent, hfirst, hzero, hlast, hcode₀,
    hagain.trans hone.symm, ?_⟩
  intro hsymbol
  exact absurd (symbolOf_inj (by decide) (by decide) hsymbol) (by decide)

end Feed

end MatchingEngine
