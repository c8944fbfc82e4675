import MatchingEngine.OrderBook

/-!
# The market: what the book is for

A price–time priority market. Each side is one list of resting orders, best price first and oldest
first within a price; a command is either rejected, which changes nothing but the sequence, or
carried out.

* `sweep`: an aggressor against the list of the opposite side.
* `enqueue`, `withdraw`: an order joins, or leaves, the list of its side.
* `available`: what the crossing prices of a list hold, each price counted modulo `2 ^ 64`.
* `Market.perform`, **`Market.process`**: one command.
-/

set_option autoImplicit false

namespace Dme

/-- The resting orders of the two sides, best first. -/
abbrev Depth := Side → List RestingOrder

/-- For a resting order of this side, price `p` comes before price `p'`. -/
def better : Side → Price → Price → Bool
  | .buy, p, p' => p' < p
  | .sell, p, p' => p < p'

/-- A trade against a resting order. -/
structure Fill where
  contra : OrderId
  price : Price
  quantity : Quantity
deriving DecidableEq, Repr

/-- What an aggressor leaves: its trades, what it did not fill, and the orders it met. -/
structure Swept where
  fills : List Fill
  remaining : Quantity
  rest : List RestingOrder
deriving DecidableEq, Repr

/-- **An aggressor against the opposite side.** -/
def sweep (aggressor : Side) (limit : Price) : Quantity → List RestingOrder → Swept
  | remaining, [] => ⟨[], remaining, []⟩
  | remaining, o :: os =>
    if remaining = 0 ∨ crossesPrice aggressor limit o.price = false then ⟨[], remaining, o :: os⟩
    else if remaining < o.quantity then
      ⟨[⟨o.orderId, o.price, remaining⟩], 0, { o with quantity := o.quantity - remaining } :: os⟩
    else
      let swept := sweep aggressor limit (remaining - o.quantity) os
      ⟨⟨o.orderId, o.price, o.quantity⟩ :: swept.fills, swept.remaining, swept.rest⟩

/-- The orders at a price. -/
def atPrice (os : List RestingOrder) (price : Price) : List RestingOrder :=
  os.filter fun o => o.price = price

/-- The quantity resting at a price, as a machine word. -/
def levelTotal (os : List RestingOrder) (price : Price) : Quantity :=
  ((atPrice os price).map RestingOrder.quantity).sum

/-- What an aggressor with this limit finds. -/
def available (aggressor : Side) (limit : Price) (os : List RestingOrder) : ℕ :=
  ∑ p ∈ (os.map RestingOrder.price).toFinset with crossesPrice aggressor limit p = true,
    (levelTotal os p).toNat

/-- An order joins its side behind every order that is not worse. -/
def enqueue (depth : Depth) (o : RestingOrder) : Depth :=
  Function.update depth o.side
    ((depth o.side).orderedInsert (fun x y => better o.side x.price y.price) o)

/-- The order with an id leaves. -/
def withdraw (depth : Depth) (id : OrderId) : Depth :=
  fun s => (depth s).filter fun o => o.orderId ≠ id

/-- **The market**: a configuration, the orders of the two sides, best first, and the last sequence. -/
structure Market where
  config : BookConfig
  depth : Depth
  lastSequence : Sequence

namespace Market

/-- The resting order with an id. -/
def find (m : Market) (id : OrderId) : Option RestingOrder :=
  (m.depth .buy ++ m.depth .sell).find? fun o => o.orderId = id

/-- The number of resting orders. -/
def size (m : Market) : ℕ := (m.depth .buy).length + (m.depth .sell).length

/-- The limit of a command; a market order takes the end of the price range. -/
def limit (m : Market) (c : Command) : Price :=
  if c.orderType = .market then
    (if c.side = .buy then m.config.maximumPrice else m.config.minimumPrice)
  else c.price

/-- Whether the levels a command crosses hold its quantity. -/
def canFill (m : Market) (c : Command) : Prop :=
  c.quantity.toNat ≤ available c.side (m.limit c) (m.depth c.side.opposite)

instance (m : Market) (c : Command) : Decidable (m.canFill c) := Nat.decLe _ _

/-- The trades of a command. -/
def tradesOf (c : Command) (fills : List Fill) : List Event :=
  fills.map fun f => eventOf .trade c f.contra f.price f.quantity .none

/-- An order trades, and what is left of it rests or is dropped. -/
def execute (m : Market) (c : Command) : Depth × List Event :=
  let swept := sweep c.side (m.limit c) c.quantity (m.depth c.side.opposite)
  let depth := Function.update m.depth c.side.opposite swept.rest
  let trades := tradesOf c swept.fills
  if swept.remaining = 0 then (depth, trades)
  else if c.orderType = .limit then
    (enqueue depth ⟨c.orderId, c.side, c.price, swept.remaining, c.sequence⟩,
      trades ++ [eventOf .rested c 0 c.price swept.remaining .none])
  else (depth, trades ++ [eventOf .cancelled c 0 c.price swept.remaining .none])

/-- A new order: why it is rejected, or what it does. -/
def submit (m : Market) (c : Command) : Except RejectReason (Depth × List Event) :=
  if c.quantity = 0 then .error .invalidQuantity
  else if c.orderType ≠ .market ∧ m.config.validPrice c.price = false then .error .invalidPrice
  else if (m.find c.orderId).isSome then .error .duplicateOrderId
  else if c.orderType = .fillOrKill ∧ ¬ m.canFill c then .error .wouldNotFill
  else if m.size = m.config.maximumOrders.toNat ∧ c.orderType = .limit ∧ ¬ m.canFill c then
    .error .bookCapacity
  else .ok ((m.execute c).1, eventOf .accepted c 0 0 0 .none :: (m.execute c).2)

/-- A resting order is taken off the market. -/
def cancel (m : Market) (c : Command) : Except RejectReason (Depth × List Event) :=
  match m.find c.orderId with
  | none => .error .unknownOrderId
  | some o =>
    .ok (withdraw m.depth c.orderId, [eventOf .cancelled c 0 o.price o.quantity .none])

/-- The order a replace command puts in place of the resting order `o`. -/
def replacement (c : Command) (o : RestingOrder) : Command :=
  { c with side := o.side, orderType := .limit }

/-- A resting order leaves, and the one in its place trades and rests as if it had just come. -/
def replace (m : Market) (c : Command) : Except RejectReason (Depth × List Event) :=
  match m.find c.orderId with
  | none => .error .unknownOrderId
  | some o =>
    if c.quantity = 0 then .error .invalidQuantity
    else if m.config.validPrice c.price = false then .error .invalidPrice
    else
      let r := replacement c o
      let done := { m with depth := withdraw m.depth c.orderId }.execute r
      .ok (done.1, eventOf .replaced r 0 r.price r.quantity .none :: done.2)

/-- What a command in sequence does: a reason to reject it, or the new depth and the events. -/
def perform (m : Market) (c : Command) : Except RejectReason (Depth × List Event) :=
  match c.type with
  | .new => m.submit c
  | .cancel => m.cancel c
  | .replace => m.replace c

/-- The event of a rejected command. -/
def rejection (c : Command) (reason : RejectReason) : Event := eventOf .rejected c 0 0 0 reason

/-- **One command.** -/
def process (m : Market) (c : Command) : Market × List Event :=
  if c.sequence ≠ m.lastSequence + 1 then (m, [rejection c .sequenceGap])
  else match m.perform c with
    | .error reason => ({ m with lastSequence := c.sequence }, [rejection c reason])
    | .ok (depth, events) => ({ m with depth, lastSequence := c.sequence }, events)

/-- The commands of a list one after another, with the events of each. -/
def run (m : Market) : List Command → Market × List (List Event)
  | [] => (m, [])
  | c :: cs => (((m.process c).1.run cs).1, (m.process c).2 :: ((m.process c).1.run cs).2)

end Market

end Dme
