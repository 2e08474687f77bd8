import MatchingEngine.Book.Refinement

/-! # Replacing is canceling and adding

    A replacement leaves a book as a cancel of the old order and an add of the
    new one on its side would. It says so with other events only when the new
    order rests in full: `Replaced` then stands for the `Canceled` and the
    `Added` (`LikeCancelThenAdd`).

    This is proved for the priority book and carried over to the books that
    simulate it. With a ladder that is too wide the fast book does not see the
    asks it holds, and it reports a `Replaced` for an order that crosses them.
-/

namespace MatchingEngine

/-! ## Section 1: What is compared -/

/-- What a book shows of itself. -/
structure Shown where
  snapshot : BookSnapshot
  contains : OrderId → Bool
  nextMatchId : Nat

namespace Shown

/-- The order rests on a side, with its price and its open quantity. -/
def Rests (v : Shown) (side : Side) (o : Resting) : Prop := o ∈ PriorityBook.entries v.snapshot side

def Crossed (v : Shown) (side : Side) (price : Price) : Prop :=
  ∃ x, v.Rests side.opposite x ∧ crosses side price x.price

end Shown

def PriorityBook.shown (a : PriorityBook) : Shown := ⟨a.snapshot, a.contains, a.nextMatchId⟩

def OrderBook.Shows (b : OrderBook) (v : Shown) : Prop :=
  b.snapshot = v.snapshot ∧ (∀ id, b.contains id = v.contains id) ∧ b.nextMatchId = v.nextMatchId

def FastBook.Shows (fb : FastBook) (v : Shown) : Prop :=
  fb.snapshot = some v.snapshot ∧ (∀ id, fb.contains id = some (v.contains id)) ∧
    fb.nextMatchId = v.nextMatchId

/-- The executions among some events. -/
def fills (es : List BookEvent) : List ExecutedEvent :=
  es.filterMap (fun e => match e with
    | .executed e => some e
    | _ => none)

section spec

variable {S : Type} (perform : S → BookOp → Option (S × Answer)) (Shows : S → Shown → Prop)

/-- A replacement that succeeded in the state `s`, with the state `s'` and the
    events `es`, against a cancel of the old order and an add of the new one. -/
def LikeCancelThenAdd (s : S) (v : Shown) (oldId newId : OrderId) (price : Price) (qty : Qty)
    (s' : S) (es : List BookEvent) : Prop :=
  ∃ side old s₁ v₁ r s₂ v₂ added,
    v.Rests side old ∧ old.id = oldId ∧
    perform s (.cancel oldId 0) = some (s₁, .flag true, [.canceled ⟨oldId, old.openQty, true⟩]) ∧
    Shows s₁ v₁ ∧ perform s₁ (.add newId side price qty) = some (s₂, .added r, added) ∧
    -- both ways lead to the same book and the same executions
    Shows s₂ v₂ ∧ Shows s' v₂ ∧ fills es = fills added ∧
    -- with the same events when the new price crosses
    (v₁.Crossed side price → es = .canceled ⟨oldId, old.openQty, true⟩ :: added) ∧
    (¬ v₁.Crossed side price → es = [.replaced ⟨oldId, newId, side, price, qty⟩] ∧
      added = [.added ⟨newId, side, price, qty⟩] ∧ v₂.Rests side ⟨newId, price, qty⟩)

/-- What `replace` promises in a state. -/
def ReplaceSpec (s : S) (oldId newId : OrderId) (price : Price) (qty : Qty) : Prop :=
  ∃ v s' ok es, Shows s v ∧ perform s (.replace oldId newId price qty) = some (s', .flag ok, es) ∧
    (ok = false ↔ v.contains oldId = false ∨ newId = oldId ∨ v.contains newId = true ∨ price ≤ 0 ∨
      qty = 0) ∧
    (ok = false → es = [] ∧ Shows s' v) ∧
    (ok = true → LikeCancelThenAdd perform Shows s v oldId newId price qty s' es)

end spec

/-! ## Section 2: The priority book -/

namespace PriorityBook

variable {a : PriorityBook} {oldId newId : OrderId} {side : Side} {price : Price} {qty : Qty}
  {old : Resting}

theorem WF.rests_shown (h : a.WF) {o : Resting} : a.shown.Rests side o ↔ o ∈ a.side side := by
  rw [Shown.Rests, shown, h.entries_snapshot]

theorem wouldCross_iff (h : a.WF) :
    a.wouldCross side price = true ↔ a.shown.Crossed side price := by
  constructor
  · intro hw
    unfold wouldCross best at hw
    cases hl : a.side side.opposite with
    | nil => simp [hl] at hw
    | cons x l =>
      refine ⟨x, h.rests_shown.mpr (by simp [hl]), ?_⟩
      simpa [hl] using hw
  · rintro ⟨x, hx, hc⟩
    by_contra hw
    exact h.not_crosses_of_wouldCross (by simpa using hw) x (h.rests_shown.mp hx) hc

/-- An order that crosses nothing rests in full. -/
theorem enter_of_not_crosses (id : OrderId) (hq : qty ≠ 0)
    (h : ∀ o ∈ a.side side.opposite, ¬ crosses side price o.price) :
    a.enter id side price qty = (a.rest id side price qty, 0, [.added ⟨id, side, price, qty⟩]) := by
  have hwalk : a.walk id side price qty = _ :=
    walk_done (Or.inr (fun o ho => h o (List.mem_of_mem_head? ho)))
  rw [enter_eq, hwalk]
  simp only [if_neg hq, afterWalk_done, UInt32.sub_self, List.map_nil, List.nil_append]

/-- A replacement is refused for one of the five reasons. -/
theorem replace_refused (h : a.contains oldId = false ∨ newId = oldId ∨ a.contains newId = true ∨
    price ≤ 0 ∨ qty = 0) : a.replace oldId newId price qty = (a, false, []) := by
  unfold replace
  cases hl : a.lookup oldId with
  | none => rfl
  | some x =>
    obtain ⟨s, o⟩ := x
    have hthere : a.contains oldId = true := by rw [contains, hl]; rfl
    dsimp only
    rcases h with h | h | h | h | h
    · cases hthere.symm.trans h
    · rw [if_pos (Or.inl h)]
    · rw [if_pos (Or.inr h)]
    all_goals
      split
      · rfl
      · rw [if_pos (by simp [h])]

theorem WF.cancel_all (h : a.WF) (hold : old ∈ a.side side) :
    a.cancel old.id 0 = (a.remove old.id, true, [.canceled ⟨old.id, old.openQty, true⟩]) := by
  have hpos : ¬ (0 : Qty) ≥ old.openQty := by
    have := (h.sides side).pos old hold
    grind
  rw [cancel, h.lookup_iff.mpr ⟨hold, rfl⟩]
  simp only [if_neg hpos, if_true]

/-- A replacement that is not refused enters the new order into the book without
    the old one. -/
theorem WF.replace_eq (h : a.WF) (hold : old ∈ a.side side) (hne : newId ≠ old.id)
    (hnew : a.contains newId = false) (hp : 0 < price) (hq : qty ≠ 0) :
    a.replace old.id newId price qty =
      (((a.remove old.id).enter newId side price qty).1, true,
        if (a.remove old.id).wouldCross side price then
          .canceled ⟨old.id, old.openQty, true⟩ ::
            ((a.remove old.id).enter newId side price qty).2.2
        else [.replaced ⟨old.id, newId, side, price, qty⟩]) := by
  have hp' : ¬ (price ≤ 0 ∨ qty = 0) := by
    rintro (hle | hz)
    · lia
    · exact hq hz
  rw [replace, h.lookup_iff.mpr ⟨hold, rfl⟩]
  simp only [hne, hnew, Bool.false_eq_true, or_self, if_false, if_neg hp']
  split
  · rfl
  · rename_i hw
    rw [enter_of_not_crosses _ hq ((h.remove old.id).not_crosses_of_wouldCross (by simpa using hw))]

end PriorityBook

/-- **Replacing in the priority book**, and in every book that simulates it and
    shows what it shows. -/
theorem replaceSpec_of_simulation {S : Type} {perform : S → BookOp → Option (S × Answer)}
    {Shows : S → Shown → Prop} {R : S → PriorityBook → Prop}
    (hsim : Machine.Simulation R perform (fun a op => some (a.perform op)))
    (hshows : ∀ {s a}, R s a → Shows s a.shown) (hwf : ∀ {s a}, R s a → a.WF) {s : S}
    {a : PriorityBook} (h : R s a) (oldId newId : OrderId) (price : Price) (qty : Qty) :
    ReplaceSpec perform Shows s oldId newId price qty := by
  have hstep : ∀ {s a}, R s a → ∀ op, ∃ s', perform s op = some (s', (a.perform op).2) ∧
      R s' (a.perform op).1 := by
    intro s a h op
    obtain ⟨s', a', o, hs, ha, h'⟩ := hsim s a h op
    obtain ⟨rfl, rfl⟩ : (a.perform op).1 = a' ∧ (a.perform op).2 = o := by
      rw [Option.some.inj ha]
      exact ⟨rfl, rfl⟩
    exact ⟨s', hs, h'⟩
  obtain ⟨s', hreplace, h'⟩ := hstep h (.replace oldId newId price qty)
  have ha := hwf h
  by_cases hrefuse : a.contains oldId = false ∨ newId = oldId ∨ a.contains newId = true ∨
    price ≤ 0 ∨ qty = 0
  · -- refused
    simp only [PriorityBook.perform, PriorityBook.replace_refused hrefuse] at hreplace h'
    exact ⟨a.shown, s', false, [], hshows h, hreplace, iff_of_true rfl hrefuse,
      fun _ => ⟨rfl, hshows h'⟩, nofun⟩
  · obtain ⟨hold, hne, hnew, hp, hq⟩ : a.contains oldId = true ∧ newId ≠ oldId ∧
        a.contains newId = false ∧ 0 < price ∧ qty ≠ 0 := by
      simp only [not_or, Bool.not_eq_false, Bool.not_eq_true, Int.not_le] at hrefuse
      exact hrefuse
    obtain ⟨side, old, hmem, rfl⟩ := PriorityBook.contains_iff.mp hold
    simp only [PriorityBook.perform, ha.replace_eq hmem hne hnew hp hq] at hreplace h'
    -- the old order goes, and the new one is added to what is left
    have ha₁ := ha.remove old.id
    have hnew₁ : (a.remove old.id).contains newId = false := by
      rw [PriorityBook.contains_remove_of_ne hne]
      exact hnew
    obtain ⟨s₁, hcancel, h₁⟩ := hstep h (.cancel old.id 0)
    simp only [PriorityBook.perform, ha.cancel_all hmem] at hcancel h₁
    obtain ⟨s₂, hadd, h₂⟩ := hstep h₁ (.add newId side price qty)
    simp only [PriorityBook.perform, PriorityBook.add_ok hnew₁ hp hq] at hadd h₂
    refine ⟨a.shown, s', true, _, hshows h, hreplace, iff_of_false nofun hrefuse, nofun,
      fun _ => ?_⟩
    refine ⟨side, old, s₁, _, _, s₂, _, _, ha.rests_shown.mpr hmem, rfl, hcancel, hshows h₁, hadd,
      hshows h₂, hshows h', ?_, ?_, ?_⟩
    · -- an order that does not cross executes nothing
      split
      · rfl
      · rename_i hw
        rw [PriorityBook.enter_of_not_crosses _ hq
          (ha₁.not_crosses_of_wouldCross (by simpa using hw))]
        rfl
    · intro hc
      rw [if_pos ((PriorityBook.wouldCross_iff ha₁).mpr hc)]
    · intro hc
      have hw : (a.remove old.id).wouldCross side price = false := by
        rw [← Bool.not_eq_true]
        exact fun hw => hc ((PriorityBook.wouldCross_iff ha₁).mp hw)
      have henter := PriorityBook.enter_of_not_crosses newId hq (ha₁.not_crosses_of_wouldCross hw)
      refine ⟨by simp [hw], by rw [henter], ?_⟩
      rw [(hwf h₂).rests_shown, henter]
      exact PriorityBook.mem_side_rest.mpr (Or.inr ⟨rfl, rfl⟩)

/-! ## Section 3: A ladder that is too wide -/

namespace FastBook

/-- A buy order is replaced at the price of the ask, and the book reports a
    `Replaced`. -/
theorem not_replaceSpec_of_wide {cfg : Config} (htick : 0 < cfg.tick)
    (hwide : 2 ^ 30 ≤ cfg.bandHalfTicks.toInt) :
    ∃ fb answers, Machine.run perform (create cfg) [.add 1 .sell 1 1, .add 2 .buy 1 1] =
      some (fb, answers) ∧ ¬ ReplaceSpec perform Shows fb 2 3 1 1 := by
  obtain ⟨fb₁, fb, t, hadd₁, hadd₂, h⟩ := wide_adds htick hwide
  refine ⟨fb, _, by simp [Machine.run, perform, hadd₁, hadd₂]; rfl, ?_⟩
  have hfind : fb.index.find 2 = some (some 1) := FlatMap.find_spec h.index 2
  have hcontains : fb.contains 3 = some false := FlatMap.contains_spec h.index 3
  have hslot : fb.pool[1]? = some ⟨2, 1, 1, some 0, none, .buy⟩ := by
    rw [h.pool]
    rfl
  -- the sell order is left in the level
  have hunlink : unlink fb.pool ⟨1, some 0, some 1⟩ 1 =
      some ([⟨1, 1, 1, none, none, .sell⟩, ⟨2, 1, 1, none, none, .buy⟩], ⟨1, some 0, some 0⟩) := by
    rw [h.pool]
    rfl
  obtain ⟨fb', hremove, hsame, hladder, hpool⟩ :=
    removeResting_at hslot h.tick h.level h.index hunlink
  obtain ⟨cursor, hcross⟩ := (h.blind.congr hsame).wouldCross 1
  rintro ⟨v, s', ok, es, -, hreplace, -, -, htrue⟩
  -- the replacement does not see it
  obtain ⟨rfl, rfl⟩ : ok = true ∧ es = [.replaced ⟨2, 3, .buy, 1, 1⟩] := by
    have hne : ¬ ((3 : OrderId) = 2 ∨ false = true) := by decide
    have hp : ¬ ((1 : Price) ≤ 0 ∨ (1 : Qty) = 0) := by decide
    simp only [perform, replace, hfind, hcontains, if_neg hne, if_neg hp, hslot, hremove, hcross,
      Option.bind_eq_bind, Option.bind_some, Option.map_eq_some_iff] at hreplace
    obtain ⟨x, hrest, heq⟩ := hreplace
    obtain ⟨fb₃, -, hx⟩ := Option.bind_eq_some_iff.mp hrest
    cases hx
    cases heq
    exact ⟨rfl, rfl⟩
  obtain ⟨side, old, s₁, v₁, r, s₂, v₂, added, -, -, hcancel, hshows, -, -, -, -, hcrossed,
      hfree⟩ := htrue rfl
  obtain rfl : fb' = s₁ := by
    have hkeep : ¬ (0 : Qty) ≥ 1 := by decide
    simp only [perform, cancel, hfind, hslot, if_neg hkeep, if_true, hremove, Option.bind_eq_bind,
      Option.bind_some, Option.map_some, Option.some.injEq, Prod.mk.injEq] at hcancel
    exact hcancel.1
  have hrests : v₁.Rests .sell ⟨1, 1, 1⟩ := by
    have hfirst := mem_entries_of_ladder (i := 0) (o := ⟨1, 1, 1, none, none, .sell⟩) hshows.1
      (by rw [hladder]; exact Arena.get_set_self _ h.level) rfl (by rw [hpool]; rfl)
    rwa [hsame.band.priceAt, h.price] at hfirst
  cases side with
  | buy => cases hcrossed ⟨_, hrests, by decide⟩
  | sell =>
    by_cases hc : v₁.Crossed .sell 1
    · cases hcrossed hc
    · cases (hfree hc).1

end FastBook

/-! ## Section 4: The books -/

theorem OrderBook.Models.shows {b : OrderBook} {a : PriorityBook} (h : b.Models a) :
    b.Shows a.shown :=
  ⟨h.snapshot, h.contains, h.nextMatchId⟩

theorem FastBook.Models.shows {fb : FastBook} {a : PriorityBook} (h : fb.Models a) :
    fb.Shows a.shown :=
  ⟨h.snapshot, h.contains, h.nextMatchId⟩

/-- **Replace equals cancel-then-add** in every state that calls lead to. This
    holds for the reference book, and for the fast book exactly as long as the
    size of the ladder fits an `int`. -/
theorem replace_like_cancel_then_add (cfg : FastBook.Config) :
    (∀ ops, ∃ b answers, Machine.run OrderBook.perform {} ops = some (b, answers) ∧
      ∀ oldId newId price qty, ReplaceSpec OrderBook.perform OrderBook.Shows b oldId newId
        price qty) ∧
    (0 < cfg.tick → 0 ≤ cfg.bandHalfTicks.toInt →
      ((∀ ops, ∃ fb answers, Machine.run FastBook.perform (FastBook.create cfg) ops =
        some (fb, answers) ∧
        ∀ oldId newId price qty,
          ReplaceSpec FastBook.perform FastBook.Shows fb oldId newId price qty) ↔
      cfg.bandHalfTicks.toInt < 2 ^ 30)) := by
  constructor
  · intro ops
    obtain ⟨b, a, answers, hrun, -, h⟩ := OrderBook.simulation.run OrderBook.models_empty ops
    exact ⟨b, answers, hrun, replaceSpec_of_simulation OrderBook.simulation OrderBook.Models.shows
      OrderBook.Models.wf h⟩
  · intro htick hhalf
    constructor
    · intro h
      by_contra hwide
      obtain ⟨fb, answers, hrun, hnot⟩ :=
        FastBook.not_replaceSpec_of_wide htick (Int.not_lt.mp hwide)
      obtain ⟨fb', answers', hrun', hspec⟩ := h [.add 1 .sell 1 1, .add 2 .buy 1 1]
      cases hrun.symm.trans hrun'
      exact hnot (hspec 2 3 1 1)
    · intro hlt ops
      obtain ⟨fb, a, answers, hrun, -, h⟩ :=
        FastBook.simulation.run (FastBook.models_create ⟨htick, hhalf, hlt⟩) ops
      exact ⟨fb, answers, hrun, replaceSpec_of_simulation FastBook.simulation FastBook.Models.shows
        FastBook.Models.wf h⟩

/-- A half width of 2^30 ticks: with a sell order at the price 1 in the book, a
    buy order that is replaced at this price is reported as `Replaced`. -/
theorem replaced_although_crossed : ∃ fb answers,
    Machine.run FastBook.perform (FastBook.create { bandHalfTicks := 1073741824 })
      [.add 1 .sell 1 1, .add 2 .buy 1 1] = some (fb, answers) ∧
    ¬ ReplaceSpec FastBook.perform FastBook.Shows fb 2 3 1 1 :=
  FastBook.not_replaceSpec_of_wide (by decide) (by decide)

end MatchingEngine
