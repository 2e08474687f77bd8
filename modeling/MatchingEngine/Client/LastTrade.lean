import MatchingEngine.Client.Restrict

/-! # The last trade

    A builder shows the price and the quantity of the last trade. An execution
    names its order only. Its price is the one at which the messages before have
    announced the order, and the builder looks it up in its record of the order.
    When there is no record, because the order was filtered out or added before the
    builder listened, the quantity is shown all the same, beside the price of an
    earlier trade.
-/

namespace MatchingEngine

namespace Client

open ItchBookBuilder

variable {msg : Itch.Message} {ref : UInt64} {msgs : List Itch.Message}

namespace ItchBookBuilder

variable (b : ItchBookBuilder)

def lastTrade : Price × Qty := (b.lastTradePrice, b.lastTradeQty)

/-- What the builder takes from a message: the price, if it finds one, and the
    quantity. -/
def tradeOf : Itch.Message → Option (Option Price × Qty)
  | .orderExecuted m => some ((b.orders.lookup m.orderRef).map BuilderOrder.price, m.executedShares)
  | .orderExecutedWithPrice m => some (some m.executionPrice, m.exec.executedShares)
  | _ => none

/-- A trade without a price leaves the price of the last one, and only executions
    change the last trade. -/
theorem lastTrade_onMessage (msg : Itch.Message) :
    (b.onMessage msg).lastTrade =
      ((b.tradeOf msg).map (fun x => (x.1.getD b.lastTradePrice, x.2))).getD b.lastTrade := by
  -- the effect on the records leaves what was noted alone
  obtain ⟨orders, books, hperform⟩ := (b.noted msg).perform_frame (effect msg)
  rw [onMessage_eq, hperform]
  cases msg <;> rfl

/-- The message executes an order without a record. -/
def Unrecorded : Itch.Message → Prop
  | .orderExecuted m => b.orders.lookup m.orderRef = none
  | _ => False

/-- The message replaces an order without a record by one whose reference is that of
    a recorded order. -/
def Reuses : Itch.Message → Prop
  | .orderReplace m =>
    b.orders.lookup m.originalRef = none ∧ (b.orders.lookup m.newRef).isSome
  | _ => False

end ItchBookBuilder

/-! ### What the messages say -/

/-- The reference and the price of an order that a message announces. -/
def announces : Itch.Message → Option (UInt64 × Price)
  | .addOrder m => some (m.orderRef, m.price)
  | .addOrderMpid m => some (m.add.orderRef, m.add.price)
  | .orderReplace m => some (m.newRef, m.price)
  | _ => none

/-- The price at which some messages have last announced an order. -/
def announcedPrice (msgs : List Itch.Message) (ref : UInt64) : Option Price :=
  ((msgs.filterMap announces).filter (fun a => a.1 = ref)).getLast?.map Prod.snd

/-- The execution that a message reports after others: its price, if they tell it,
    and its quantity. -/
def execution (before : List Itch.Message) : Itch.Message → Option (Option Price × Qty)
  | .orderExecuted m => some (announcedPrice before m.orderRef, m.executedShares)
  | .orderExecutedWithPrice m => some (some m.executionPrice, m.exec.executedShares)
  | _ => none

/-- The executions that some messages report after others. -/
def executions : List Itch.Message → List Itch.Message → List (Option Price × Qty)
  | _, [] => []
  | before, msg :: msgs => (execution before msg).toList ++ executions (before ++ [msg]) msgs

theorem executions_concat (before msgs : List Itch.Message) (msg : Itch.Message) :
    executions before (msgs ++ [msg]) =
      executions before msgs ++ (execution (before ++ msgs) msg).toList := by
  induction msgs generalizing before with
  | nil => simp [executions]
  | cons msg' msgs ih =>
    rw [List.cons_append, executions, executions, ih, List.append_assoc, List.append_assoc]
    rfl

theorem announcedPrice_of_announces {price : Price} (h : announces msg = some (ref, price))
    (msgs : List Itch.Message) : announcedPrice (msgs ++ [msg]) ref = some price := by
  simp [announcedPrice, h]

theorem announcedPrice_of_ne (h : ∀ price, announces msg ≠ some (ref, price))
    (msgs : List Itch.Message) : announcedPrice (msgs ++ [msg]) ref = announcedPrice msgs ref := by
  cases hnew : announces msg with
  | none => simp [announcedPrice, hnew]
  | some a =>
    have hother : a.1 ≠ ref := fun hsame => h a.2 (by rw [hnew, ← hsame])
    simp [announcedPrice, hnew, hother]

/-- A message announces what its effect introduces. -/
theorem announces_eq (msg : Itch.Message) :
    announces msg = (effect msg).introduces.bind (fun ref =>
      (effect msg).price.map (fun price => (ref, price))) := by
  cases msg <;> rfl

/-- What is shown after some messages is one of the executions they report, or
    nothing. -/
def ShowsOneTrade (msgs : List Itch.Message) : Prop :=
  (listened msgs).lastTrade = (0, 0) ∨
    (some (listened msgs).lastTradePrice, (listened msgs).lastTradeQty) ∈ executions [] msgs

/-- The builder has recorded the orders at the prices that were announced. -/
def Announced (msgs : List Itch.Message) : Prop :=
  ∀ ref o, (listened msgs).orders.lookup ref = some o → announcedPrice msgs ref = some o.price

/-! ### One message -/

/-- A record that a message leaves as it was is not the one it announces. -/
theorem lookup_of_announces {b : ItchBookBuilder} {o : BuilderOrder} {price : Price}
    (hnew : announces msg = some (ref, price)) (hreuses : ¬ b.Reuses msg)
    (ho : (b.onMessage msg).orders.lookup ref = some o) : o.price = price := by
  rw [onMessage_eq] at ho
  have hadd : ∀ {b' : ItchBookBuilder} {symbol side shares},
      (b'.addOrder ref symbol side price shares).orders.lookup ref = some o → o.price = price := by
    intro b' symbol side shares h
    rw [lookup_addOrder, if_pos rfl] at h
    cases h
    rfl
  cases msg with
  | addOrder m | addOrderMpid m =>
    cases hnew
    exact hadd ho
  | orderReplace m =>
    cases hnew
    unfold effect perform at ho
    dsimp only at ho
    rw [orders_noted] at ho
    cases hold : b.orders.lookup m.originalRef with
    | none =>
      -- nothing has changed, so that the reference was in use
      rw [hold] at ho
      dsimp only at ho
      rw [orders_noted] at ho
      exact absurd ⟨hold, by rw [ho]; rfl⟩ hreuses
    | some old =>
      rw [hold] at ho
      exact hadd ho
  | _ => cases hnew

theorem Announced.concat (h : Announced msgs) (hreuses : ¬ (listened msgs).Reuses msg) :
    Announced (msgs ++ [msg]) := by
  intro ref o ho
  rw [listened_concat] at ho
  by_cases hnew : ∃ price, announces msg = some (ref, price)
  · obtain ⟨price, hprice⟩ := hnew
    rw [announcedPrice_of_announces hprice, lookup_of_announces hprice hreuses ho]
  · rw [announcedPrice_of_ne (fun price hprice => hnew ⟨price, hprice⟩)]
    rw [onMessage_eq] at ho
    rcases recorded_perform ho with ⟨o', ho', hprice⟩ | ⟨hintro, hprice⟩
    · rw [orders_noted] at ho'
      exact (h ref o' ho').trans (congrArg some hprice)
    · refine absurd ⟨o.price, ?_⟩ hnew
      rw [announces_eq, hintro, hprice]
      rfl

/-- Where the order is recorded, the builder takes the execution that is reported. -/
theorem tradeOf_eq (h : Announced msgs) (hrecorded : ¬ (listened msgs).Unrecorded msg) :
    (listened msgs).tradeOf msg = execution msgs msg ∧
      ∀ qty, execution msgs msg ≠ some (none, qty) := by
  cases msg with
  | orderExecuted m =>
    obtain ⟨o, ho⟩ := Option.ne_none_iff_exists'.mp hrecorded
    rw [tradeOf, execution, ho, h _ o ho]
    exact ⟨rfl, nofun⟩
  | _ => exact ⟨rfl, nofun⟩

theorem showsOneTrade_concat (h : ShowsOneTrade msgs) (hannounced : Announced msgs)
    (hrecorded : ¬ (listened msgs).Unrecorded msg) : ShowsOneTrade (msgs ++ [msg]) := by
  obtain ⟨htrade, hpriced⟩ := tradeOf_eq hannounced hrecorded
  have hlast := (listened msgs).lastTrade_onMessage msg
  rw [← listened_concat, htrade] at hlast
  unfold ShowsOneTrade
  rw [executions_concat, List.nil_append]
  cases hexec : execution msgs msg with
  | none =>
    -- the message changes neither what is shown nor the executions
    rw [hexec] at hlast
    obtain ⟨hprice, hqty⟩ := Prod.mk.inj hlast
    rw [hlast, hprice, hqty, Option.toList_none, List.append_nil]
    exact h
  | some x =>
    obtain ⟨_ | price, qty⟩ := x
    · exact absurd hexec (hpriced qty)
    · -- the execution itself is shown
      rw [hexec] at hlast
      obtain ⟨hprice, hqty⟩ := Prod.mk.inj hlast
      rw [hprice, hqty]
      exact .inr (List.mem_append_right _ (List.mem_singleton_self _))

/-- What is shown beside the price of an earlier trade is right by coincidence only. -/
theorem showsOneTrade_concat_iff {m : Itch.OrderExecuted}
    (hnone : (listened msgs).Unrecorded (.orderExecuted m)) (hqty : m.executedShares ≠ 0)
    (hfresh : ∀ x ∈ executions [] msgs, x.2 ≠ m.executedShares) :
    ShowsOneTrade (msgs ++ [.orderExecuted m]) ↔
      announcedPrice msgs m.orderRef = some (listened msgs).lastTradePrice := by
  have hlast := (listened msgs).lastTrade_onMessage (.orderExecuted m)
  have htrade : (listened msgs).tradeOf (.orderExecuted m) = some (none, m.executedShares) := by
    rw [tradeOf, show (listened msgs).orders.lookup m.orderRef = none from hnone]
    rfl
  rw [← listened_concat, htrade] at hlast
  obtain ⟨hprice, hshown⟩ := Prod.mk.inj hlast
  rw [ShowsOneTrade, hlast, hprice, hshown, executions_concat]
  constructor
  · rintro (hzero | hmem)
    · exact absurd (Prod.mk.inj hzero).2 hqty
    · rcases List.mem_append.mp hmem with hold | hnew
      · exact absurd rfl (hfresh _ hold)
      · exact (Prod.mk.inj (List.mem_singleton.mp hnew)).1.symm
  · intro hsame
    exact .inr (List.mem_append_right _ (List.mem_singleton.mpr (Prod.ext hsame.symm rfl)))

/-! ### Whole sequences -/

/-- **Run lemma.** The records are those announced, and a real trade is shown, after
    every message. -/
theorem showsOneTrade_take (hgood : ∀ k msg, msgs[k]? = some msg →
    ¬ (listened (msgs.take k)).Unrecorded msg ∧ ¬ (listened (msgs.take k)).Reuses msg) (k : Nat) :
    Announced (msgs.take k) ∧ ShowsOneTrade (msgs.take k) := by
  induction k with
  | zero =>
    refine ⟨?_, .inl rfl⟩
    intro ref o ho
    cases ho
  | succ k ih =>
    rw [List.take_add_one]
    cases hmsg : msgs[k]? with
    | none =>
      rw [Option.toList_none, List.append_nil]
      exact ih
    | some msg =>
      obtain ⟨hrecorded, hreuses⟩ := hgood k msg hmsg
      exact ⟨ih.1.concat hreuses, showsOneTrade_concat ih.2 ih.1 hrecorded⟩

/-- **When the last trade is one real trade.** For every sequence of messages: what
    is shown after each of them is one execution of the sequence, or twice 0, if
    every `OrderExecuted` is of an order that is recorded and no replacement of an
    order without a record takes a reference that is in use.

    An `OrderExecuted` of an order without a record is shown beside the price of an
    earlier trade: if its quantity is that of no execution before it, and not 0, this
    is right exactly when that price happens to be the one at which the order was
    announced. -/
theorem last_trade_real (msgs : List Itch.Message) :
    ((∀ k msg, msgs[k]? = some msg → ¬ (listened (msgs.take k)).Unrecorded msg ∧
        ¬ (listened (msgs.take k)).Reuses msg) →
      ∀ k, ShowsOneTrade (msgs.take k)) ∧
    ∀ k m, msgs[k]? = some (.orderExecuted m) →
      (listened (msgs.take k)).Unrecorded (.orderExecuted m) → m.executedShares ≠ 0 →
      (∀ x ∈ executions [] (msgs.take k), x.2 ≠ m.executedShares) →
      (ShowsOneTrade (msgs.take (k + 1)) ↔ announcedPrice (msgs.take k) m.orderRef =
        some (listened (msgs.take k)).lastTradePrice) := by
  refine ⟨fun hgood k => (showsOneTrade_take hgood k).2, fun k m hmsg hnone hqty hfresh => ?_⟩
  rw [List.take_add_one, hmsg, Option.toList_some]
  exact showsOneTrade_concat_iff hnone hqty hfresh

/-- An order is executed, and then one that was added before the builder listened.
    It shows 7 shares at the price of the 5. -/
theorem last_trade_mixed :
    (listened [.addOrder ⟨⟨0, 0, 0⟩, 1, ch 'B', 5, Vector.replicate 8 65, 100⟩,
      .orderExecuted ⟨⟨0, 0, 0⟩, 1, 5, 1⟩,
      .orderExecuted ⟨⟨0, 0, 0⟩, 2, 7, 2⟩]).lastTrade = (100, 7) ∧
    ¬ ShowsOneTrade [.addOrder ⟨⟨0, 0, 0⟩, 1, ch 'B', 5, Vector.replicate 8 65, 100⟩,
      .orderExecuted ⟨⟨0, 0, 0⟩, 1, 5, 1⟩, .orderExecuted ⟨⟨0, 0, 0⟩, 2, 7, 2⟩] := by
  unfold ShowsOneTrade
  decide

end Client

end MatchingEngine
