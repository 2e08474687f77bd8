import MatchingEngine.Book.OrderBookRefines
import MatchingEngine.Book.WideLadder
import MatchingEngine.Lib.Machine

/-! # The fast book against the reference book

    Both books are driven by the same calls. Each simulates the priority book,
    so they answer alike and agree whenever they are looked at. The bound on
    the ladder matters: `static_cast<int>` of its size turns negative from a
    half width of 2^30 ticks on, and the fast book then finds no ask in it.
-/

namespace MatchingEngine

/-! ## Section 1: Calls and answers -/

inductive BookOp where
  | add (id : OrderId) (side : Side) (price : Price) (qty : Qty)
  | cancel (id : OrderId) (keep : Qty)
  | replace (oldId newId : OrderId) (price : Price) (qty : Qty)
  | executeIoc (id : OrderId) (side : Side) (limit : Price) (qty : Qty)
  | matchable (side : Side) (limit : Price)
  | bestBid
  | bestAsk
  deriving DecidableEq, Repr

inductive Reply where
  | added (result : AddResult)
  | flag (ok : Bool)
  | filled (qty : Qty)
  | price (p : Option Price)
  /-- The reference book has no `matchable`, so its value is not compared. -/
  | looked
  deriving DecidableEq, Repr

/-- What a call gives back: its return value and the events it emitted. -/
abbrev Answer := Reply × List BookEvent

def PriorityBook.perform (b : PriorityBook) : BookOp → PriorityBook × Answer
  | .add id side price qty =>
    let (b', r, events) := b.add id side price qty
    (b', .added r, events)
  | .cancel id keep =>
    let (b', ok, events) := b.cancel id keep
    (b', .flag ok, events)
  | .replace oldId newId price qty =>
    let (b', ok, events) := b.replace oldId newId price qty
    (b', .flag ok, events)
  | .executeIoc id side limit qty =>
    let (b', filled, events) := b.executeIoc id side limit qty
    (b', .filled filled, events)
  | .matchable _ _ => (b, .looked, [])
  | .bestBid => (b, .price (b.best .buy), [])
  | .bestAsk => (b, .price (b.best .sell), [])

def OrderBook.perform (b : OrderBook) : BookOp → Option (OrderBook × Answer)
  | .add id side price qty =>
    (b.add id side price qty).map (fun (b', r, events) => (b', .added r, events))
  | .cancel id keep => (b.cancel id keep).map (fun (b', ok, events) => (b', .flag ok, events))
  | .replace oldId newId price qty =>
    (b.replace oldId newId price qty).map (fun (b', ok, events) => (b', .flag ok, events))
  | .executeIoc id side limit qty =>
    (b.matchOrder id side limit qty).map (fun (b', filled, events) => (b', .filled filled, events))
  | .matchable _ _ => some (b, .looked, [])
  | .bestBid => some (b, .price b.bestBid, [])
  | .bestAsk => some (b, .price b.bestAsk, [])

def FastBook.perform (fb : FastBook) : BookOp → Option (FastBook × Answer)
  | .add id side price qty =>
    (fb.add id side price qty).map (fun (fb', r, events) => (fb', .added r, events))
  | .cancel id keep => (fb.cancel id keep).map (fun (fb', ok, events) => (fb', .flag ok, events))
  | .replace oldId newId price qty =>
    (fb.replace oldId newId price qty).map (fun (fb', ok, events) => (fb', .flag ok, events))
  | .executeIoc id side limit qty =>
    (fb.executeIoc id side limit qty).map
      (fun (fb', filled, events) => (fb', .filled filled, events))
  | .matchable side limit => (fb.matchable side limit).map (fun (fb', _) => (fb', .looked, []))
  | .bestBid => fb.bestBid.map (fun (fb', p) => (fb', .price p, []))
  | .bestAsk => fb.bestAsk.map (fun (fb', p) => (fb', .price p, []))

/-- What an observer of both books sees. -/
structure Agree (fb : FastBook) (b : OrderBook) : Prop where
  snapshot : fb.snapshot = some b.snapshot
  contains : ∀ id, fb.contains id = some (b.contains id)
  bestBid : fb.bestBid.map Prod.snd = some b.bestBid
  bestAsk : fb.bestAsk.map Prod.snd = some b.bestAsk

/-! ## Section 2: Both books simulate the priority book -/

theorem OrderBook.simulation :
    Machine.Simulation OrderBook.Models OrderBook.perform (fun a op => some (a.perform op)) := by
  intro b a h op
  cases op with
  | add id side price qty =>
    obtain ⟨b', heq, h'⟩ := h.add id side price qty
    exact ⟨b', _, _, by rw [OrderBook.perform, heq]; rfl, rfl, h'⟩
  | cancel id keep =>
    obtain ⟨b', heq, h'⟩ := h.cancel id keep
    exact ⟨b', _, _, by rw [OrderBook.perform, heq]; rfl, rfl, h'⟩
  | replace oldId newId price qty =>
    obtain ⟨b', heq, h'⟩ := h.replace oldId newId price qty
    exact ⟨b', _, _, by rw [OrderBook.perform, heq]; rfl, rfl, h'⟩
  | executeIoc id side limit qty =>
    obtain ⟨b', heq, h'⟩ := h.matchOrder id side limit qty
    exact ⟨b', _, _, by rw [OrderBook.perform, heq]; rfl, rfl, h'⟩
  | matchable side limit => exact ⟨b, _, _, rfl, rfl, h⟩
  | bestBid =>
    exact ⟨b, _, _, by rw [OrderBook.perform, OrderBook.bestBid, h.best], rfl, h⟩
  | bestAsk =>
    exact ⟨b, _, _, by rw [OrderBook.perform, OrderBook.bestAsk, h.best], rfl, h⟩

theorem FastBook.simulation :
    Machine.Simulation FastBook.Models FastBook.perform (fun a op => some (a.perform op)) := by
  intro fb a h op
  cases op with
  | add id side price qty =>
    obtain ⟨fb', heq, h'⟩ := h.add id side price qty
    exact ⟨fb', _, _, by rw [FastBook.perform, heq]; rfl, rfl, h'⟩
  | cancel id keep =>
    obtain ⟨fb', heq, h'⟩ := h.cancel id keep
    exact ⟨fb', _, _, by rw [FastBook.perform, heq]; rfl, rfl, h'⟩
  | replace oldId newId price qty =>
    obtain ⟨fb', heq, h'⟩ := h.replace oldId newId price qty
    exact ⟨fb', _, _, by rw [FastBook.perform, heq]; rfl, rfl, h'⟩
  | executeIoc id side limit qty =>
    obtain ⟨fb', heq, h'⟩ := h.matchOrder id side limit qty
    exact ⟨fb', _, _, by rw [FastBook.perform, FastBook.executeIoc, heq]; rfl, rfl, h'⟩
  | matchable side limit =>
    obtain ⟨fb', heq, h'⟩ := h.matchable side limit
    exact ⟨fb', _, _, by rw [FastBook.perform, heq]; rfl, rfl, h'⟩
  | bestBid =>
    obtain ⟨fb', heq, h'⟩ := h.best .buy
    exact ⟨fb', _, _, by rw [FastBook.perform, FastBook.bestBid, heq]; rfl, rfl, h'⟩
  | bestAsk =>
    obtain ⟨fb', heq, h'⟩ := h.best .sell
    exact ⟨fb', _, _, by rw [FastBook.perform, FastBook.bestAsk, heq]; rfl, rfl, h'⟩

theorem agree_of_models {fb : FastBook} {b : OrderBook} {a : PriorityBook} (hf : fb.Models a)
    (hb : b.Models a) : Agree fb b where
  snapshot := by rw [hf.snapshot, hb.snapshot]
  contains := fun id => by rw [hf.contains, hb.contains]
  bestBid := by
    obtain ⟨fb', heq, -⟩ := hf.best .buy
    rw [FastBook.bestBid, heq, OrderBook.bestBid, hb.best]
    rfl
  bestAsk := by
    obtain ⟨fb', heq, -⟩ := hf.best .sell
    rw [FastBook.bestAsk, heq, OrderBook.bestAsk, hb.best]
    rfl

/-- The two books take any calls in lockstep, when the ladder is small enough. -/
theorem FastBook.Config.Valid.lockstep {cfg : FastBook.Config} (h : cfg.Valid) (ops : List BookOp) :
    Machine.Lockstep Agree FastBook.perform OrderBook.perform (FastBook.create cfg) {} ops :=
  (FastBook.simulation.common OrderBook.simulation).lockstep
    (fun _ _ ⟨_, hf, hb⟩ => agree_of_models hf hb)
    ⟨{}, FastBook.models_create h, OrderBook.models_empty⟩ ops

/-! ## Section 3: The refinement -/

/-- The two calls that part the books: the fast book does not see the ask it
    has just put into a ladder that is too wide. -/
theorem FastBook.not_lockstep_of_wide {cfg : FastBook.Config} (htick : 0 < cfg.tick)
    (hwide : 2 ^ 30 ≤ cfg.bandHalfTicks.toInt) :
    ¬ Machine.Lockstep Agree FastBook.perform OrderBook.perform (FastBook.create cfg) {}
      [.add 1 .sell 1 1, .add 2 .buy 1 1] := by
  rintro ⟨-, fb₁, b₁, ans₁, hf₁, hb₁, -, fb₂, b₂, ans₂, hf₂, hb₂, -⟩
  -- the reference book fills the buy order
  have hans : ans₂.1 = .added ⟨.ok, 1, 0⟩ := by
    obtain ⟨b₁', a₁, o₁, hb₁', ha₁, hm₁⟩ :=
      OrderBook.simulation _ _ OrderBook.models_empty (.add 1 .sell 1 1)
    cases hb₁.symm.trans hb₁'
    obtain ⟨b₂', a₂, o₂, hb₂', ha₂, -⟩ := OrderBook.simulation _ _ hm₁ (.add 2 .buy 1 1)
    cases hb₂.symm.trans hb₂'
    cases ha₁
    cases ha₂
    decide
  -- the fast book does not
  obtain ⟨fb₁', fb₂', t, hadd₁, hadd₂, -⟩ := FastBook.wide_adds htick hwide
  rw [FastBook.perform, hadd₁, Option.map_some] at hf₁
  cases hf₁
  rw [FastBook.perform, hadd₂, Option.map_some] at hf₂
  cases hf₂
  exact absurd hans (by decide)

/-- **The fast book refines the reference book** exactly as long as the size of
    the ladder fits an `int`: then any calls, made to both in lockstep from
    fresh books, get the same answers and events, and snapshot, `contains` and
    best prices agree at every point. -/
theorem fastBook_lockstep_iff (cfg : FastBook.Config) (htick : 0 < cfg.tick)
    (hhalf : 0 ≤ cfg.bandHalfTicks.toInt) :
    (∀ ops, Machine.Lockstep Agree FastBook.perform OrderBook.perform (FastBook.create cfg) {}
      ops) ↔ cfg.bandHalfTicks.toInt < 2 ^ 30 := by
  constructor
  · intro h
    by_contra hwide
    exact FastBook.not_lockstep_of_wide htick (by omega) (h _)
  · intro hlt ops
    exact FastBook.Config.Valid.lockstep ⟨htick, hhalf, hlt⟩ ops

/-- The configuration the engine uses is narrow enough. -/
theorem fastBook_lockstep_default :
    ({} : FastBook.Config).bandHalfTicks.toInt < 2 ^ 30 ∧ ∀ ops,
      Machine.Lockstep Agree FastBook.perform OrderBook.perform (FastBook.create {}) {} ops :=
  ⟨by decide, (fastBook_lockstep_iff {} (by decide) (by decide)).mpr (by decide)⟩

/-- A half width of 2^30 ticks: a sell and a buy at the same price do not
    trade in the fast book. -/
theorem fastBook_lockstep_fails :
    ¬ Machine.Lockstep Agree FastBook.perform OrderBook.perform
      (FastBook.create { bandHalfTicks := 1073741824 }) {} [.add 1 .sell 1 1, .add 2 .buy 1 1] :=
  FastBook.not_lockstep_of_wide (by decide) (by decide)

end MatchingEngine
