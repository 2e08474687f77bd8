import MatchingEngine.Engine.Venue

/-! # An order on its way in

    The steps of the venue say what can happen to an order in flight. Here is
    what does happen to it, and when. It executes against the best opposite
    order as often as it can (`Executes`). What is left of it comes to rest
    (`Enters`), or is canceled if it is not to rest. An order whose minimum
    quantity is not there is canceled before it executes (`Outcome`).
-/

namespace MatchingEngine

open Venue

/-! ## Section 1: Executions -/

/-- `Executes now v f es v' f'`: the executions `es` take the order in flight
    from `f` to `f'`, and the venue from `v` to `v'`. -/
inductive Executes (now : Nat) : Venue → Flight → List ExecutedEvent → Venue → Flight → Prop where
  | refl (v : Venue) (f : Flight) : Executes now v f [] v f
  | step {v v' : Venue} {f f' : Flight} {o : Resting} {l : List Resting}
      {resting aggressor : OrderInfo}
      {es : List ExecutedEvent} (best : (v.book f.symbol).side f.side.opposite = o :: l)
      (left : f.left ≠ 0)
      (cross : crosses f.side f.limit o.price) (restingInfo : v.orders o.id = some resting)
      (aggressorInfo : v.orders f.id = some aggressor)
      (rest : Executes now (v.executed now f o resting aggressor)
        { f with left := f.left - (v.execution f o).qty } es v' f') :
      Executes now v f (v.execution f o :: es) v' f'

/-- No order that rests is within the limit of the order in flight. -/
def Exhausted (v : Venue) (f : Flight) : Prop :=
  ∀ o ∈ (v.book f.symbol).side f.side.opposite, ¬ crosses f.side f.limit o.price

/-- The order enters the book: it executes, and what is left of it rests. -/
inductive Enters (now : Nat) (v : Venue) (f : Flight) : Venue → Prop where
  | landed {v' : Venue} {f' : Flight} {es : List ExecutedEvent}
      (executes : Executes now v f es v' f')
      (left : f'.left = 0) : Enters now v f v'
  | rested {v' : Venue} {f' : Flight} {es : List ExecutedEvent}
      (executes : Executes now v f es v' f')
      (left : f'.left ≠ 0) (price : 0 < f'.limit) (done : Exhausted v' f') :
      Enters now v f (v'.rested now f')

/-! ## Section 2: Outcomes -/

/-- The order is not to rest. -/
def Immediate (m : Ouch.EnterOrder) : Prop := m.price = Ouch.kMarketPrice ∨ m.tif = Ouch.kTifIOC

/-- The minimum quantity of the order is not there. -/
def Unmet (v : Venue) (f : Flight) (minQty : Qty) : Prop :=
  0 < minQty ∧ (v.book f.symbol).matchable f.side f.limit < minQty

/-- What becomes of the order `f` that was accepted with the message `m`. -/
inductive Outcome (now client : Nat) (m : Ouch.EnterOrder) (v : Venue) (f : Flight) :
    Venue → Prop where
  | killed {info : OrderInfo} (unmet : Unmet v f m.minQty) (left : f.left ≠ 0)
      (live : v.orders f.id = some info) (owner : info.clientId = client ∧ info.token = m.token) :
      Outcome now client m v f (v.killed now f info 'D')
  | filled {v' : Venue} {f' : Flight} {es : List ExecutedEvent} (met : ¬ Unmet v f m.minQty)
      (immediate : Immediate m) (executes : Executes now v f es v' f') (left : f'.left = 0) :
      Outcome now client m v f v'
  | canceled {v' : Venue} {f' : Flight} {es : List ExecutedEvent} {info : OrderInfo}
      (met : ¬ Unmet v f m.minQty) (immediate : Immediate m) (executes : Executes now v f es v' f')
      (left : f'.left ≠ 0) (done : Exhausted v' f') (live : v'.orders f'.id = some info)
      (owner : info.clientId = client ∧ info.token = m.token) :
      Outcome now client m v f (v'.killed now f' info 'I')
  | entered {v' : Venue} (met : ¬ Unmet v f m.minQty) (day : ¬ Immediate m)
      (enters : Enters now v f v') :
      Outcome now client m v f v'

/-! ### All of this are steps of the venue -/

section steps

variable {now client : Nat} {v v' : Venue} {f f' : Flight} {es : List ExecutedEvent}

theorem Executes.steps (h : Executes now v f es v' f') (client : Nat) :
    Relation.ReflTransGen (Step now client) (v, some f) (v', some f') := by
  induction h with
  | refl v f => exact .refl
  | step best left cross restingInfo aggressorInfo _ ih =>
    exact .head (.execute _ _ _ _ _ _ best left cross restingInfo aggressorInfo) ih

theorem Enters.steps (h : Enters now v f v') (client : Nat) :
    Relation.ReflTransGen (Step now client) (v, some f) (v', none) := by
  cases h with
  | landed executes left => exact (executes.steps client).tail (.land _ _ left)
  | rested executes left price done =>
      exact (executes.steps client).tail (.rest _ _ left price done)

theorem Outcome.steps {m : Ouch.EnterOrder} (h : Outcome now client m v f v') :
    Relation.ReflTransGen (Step now client) (v, some f) (v', none) := by
  cases h with
  | killed unmet left live owner => exact .single (.kill _ _ _ 'D' left live)
  | filled met immediate executes left => exact (executes.steps client).tail (.land _ _ left)
  | canceled met immediate executes left done live owner =>
    exact (executes.steps client).tail (.kill _ _ _ 'I' left live)
  | entered met day enters => exact enters.steps client

end steps

end MatchingEngine
