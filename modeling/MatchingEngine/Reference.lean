import MatchingEngine.OrderBook

/-!
# The reference book

`ReferenceBook` of `test_differential.cpp`: the resting orders are one list, scanned from end to end
for the best order of the opposite side. One rule is added to `submit`, since the reference has no
limit on the number of resting orders.

* `bestOpposite`, `canFill`: the two scans.
* `matchLoop`, `submit`, `cancel`, `replace`, **`process`**.
-/

set_option autoImplicit false

namespace Dme

/-- The reference book: its orders in a plain list. -/
structure ReferenceBook where
  config : BookConfig
  lastSequence : Sequence := 0
  orders : List RestingOrder := []
deriving DecidableEq, Repr

namespace ReferenceBook

/-- `valid_price`: a price in range and on a tick. -/
def validPrice (r : ReferenceBook) (price : Price) : Bool :=
  price ≥ r.config.minimumPrice && price ≤ r.config.maximumPrice &&
    (price - r.config.minimumPrice) % r.config.tickSize = 0

/-- `find`: the first order with an id. -/
def find (r : ReferenceBook) (id : OrderId) : Option RestingOrder :=
  r.orders.find? fun order => order.orderId = id

/-- `crosses`: a resting order within the limit of an aggressor. -/
def crosses (side : Side) (limit : Price) (resting : RestingOrder) : Bool :=
  match side with
  | .buy => resting.price ≤ limit
  | .sell => resting.price ≥ limit

/-- The comparison of `best_opposite`: `current` takes the place of `best`. -/
def beats (side : Side) (current best : RestingOrder) : Bool :=
  (match side with
    | .buy => decide (current.price < best.price)
    | .sell => decide (current.price > best.price)) ||
  (decide (current.price = best.price) && decide (current.priority < best.priority))

/-- The loop of `best_opposite`, with the position of the current order and the best one so far. -/
def bestFrom (side : Side) (limit : Price) :
    List RestingOrder → ℕ → Option (ℕ × RestingOrder) → Option (ℕ × RestingOrder)
  | [], _, best => best
  | current :: orders, i, best =>
    if current.side = side ∨ crosses side limit current = false then
      bestFrom side limit orders (i + 1) best
    else match best with
      | none => bestFrom side limit orders (i + 1) (some (i, current))
      | some (j, order) =>
        bestFrom side limit orders (i + 1)
          (if beats side current order then some (i, current) else some (j, order))

/-- `best_opposite`: the best order to trade with, and its position. -/
def bestOpposite (side : Side) (limit : Price) (orders : List RestingOrder) :
    Option (ℕ × RestingOrder) := bestFrom side limit orders 0 none

/-- The loop of `can_fill`. -/
def canFillFrom (side : Side) (limit : Price) (quantity : Quantity) :
    List RestingOrder → Quantity → Bool
  | [], _ => false
  | order :: orders, available =>
    if order.side ≠ side ∧ crosses side limit order = true then
      if order.quantity ≥ quantity - available then true
      else canFillFrom side limit quantity orders (available + order.quantity)
    else canFillFrom side limit quantity orders available

/-- `can_fill`: whether the orders within a limit hold a quantity. -/
def canFill (r : ReferenceBook) (side : Side) (limit : Price) (quantity : Quantity) : Bool :=
  canFillFrom side limit quantity r.orders 0

/-- The matching loop: the orders, what remains and the events. -/
def matchLoop (command : Command) (limit : Price) :
    ℕ → List RestingOrder → Quantity → List Event →
      Except Fault (List RestingOrder × Quantity × List Event)
  | 0, _, _, _ => .error .endless
  | fuel + 1, orders, remaining, events =>
    if remaining ≠ 0 then
      match bestOpposite command.side limit orders with
      | none => .ok (orders, remaining, events)
      | some (i, resting) =>
        let traded := min remaining resting.quantity
        let quantity := resting.quantity - traded
        let events := emit events .trade command resting.orderId resting.price traded .none
        let orders := if quantity = 0 then orders.eraseIdx i else orders.set i { resting with quantity }
        matchLoop command limit fuel orders (remaining - traded) events
    else .ok (orders, remaining, events)

/-- The limit of a command; a market order takes the end of the price range. -/
def limitOf (r : ReferenceBook) (command : Command) : Price :=
  if command.orderType = .market then
    (if command.side = .buy then r.config.maximumPrice else r.config.minimumPrice)
  else command.price

/-- The part of `submit` after its checks. -/
def execute (r : ReferenceBook) (command : Command) (events : List Event) (replacement : Bool) :
    Except Fault (ReferenceBook × List Event) := do
  let events := if replacement then events else emit events .accepted command 0 0 0 .none
  let (orders, remaining, events) ←
    matchLoop command (r.limitOf command) (r.orders.length + 2) r.orders command.quantity events
  if remaining = 0 then .ok ({ r with orders }, events)
  else if command.orderType = .limit then
    let order := ⟨command.orderId, command.side, command.price, remaining, command.sequence⟩
    .ok ({ r with orders := orders ++ [order] },
      emit events .rested command 0 command.price remaining .none)
  else .ok ({ r with orders }, emit events .cancelled command 0 command.price remaining .none)

/-- A rejection, which leaves the book as it is. -/
def reject (r : ReferenceBook) (events : List Event) (command : Command) (reason : RejectReason) :
    Except Fault (ReferenceBook × List Event) :=
  .ok (r, emit events .rejected command 0 0 0 reason)

/-- `submit`, with one rule of its own for a full book. -/
def submit (r : ReferenceBook) (command : Command) (events : List Event) (replacement : Bool) :
    Except Fault (ReferenceBook × List Event) :=
  if command.quantity = 0 then r.reject events command .invalidQuantity
  else if command.orderType ≠ .market ∧ r.validPrice command.price = false then
    r.reject events command .invalidPrice
  else if replacement = false ∧ r.find command.orderId ≠ none then
    r.reject events command .duplicateOrderId
  else if command.orderType = .fillOrKill ∧
      r.canFill command.side (r.limitOf command) command.quantity = false then
    r.reject events command .wouldNotFill
  -- the added rule: a new limit order that has to rest needs a free place
  else if replacement = false ∧ r.orders.length = r.config.maximumOrders.toNat ∧
      command.orderType = .limit ∧
      r.canFill command.side (r.limitOf command) command.quantity = false then
    r.reject events command .bookCapacity
  else r.execute command events replacement

/-- `cancel`; within a replace command it emits nothing. -/
def cancel (r : ReferenceBook) (command : Command) (events : List Event) (replacing : Bool) :
    Except Fault (ReferenceBook × List Event) :=
  match r.find command.orderId with
  | none => r.reject events command .unknownOrderId
  | some removed =>
    .ok ({ r with orders := r.orders.eraseP fun order => order.orderId = command.orderId },
      if replacing then events
      else emit events .cancelled command 0 removed.price removed.quantity .none)

/-- `replace`: the order leaves, and a limit order takes its place. -/
def replace (r : ReferenceBook) (command : Command) (events : List Event) :
    Except Fault (ReferenceBook × List Event) :=
  match r.find command.orderId with
  | none => r.reject events command .unknownOrderId
  | some order =>
    if command.quantity = 0 ∨ r.validPrice command.price = false then
      r.reject events command (if command.quantity = 0 then .invalidQuantity else .invalidPrice)
    else do
      let (r, events) ← r.cancel command events true
      let replacement := { command with side := order.side, orderType := .limit }
      let events := emit events .replaced replacement 0 replacement.price replacement.quantity .none
      r.submit replacement events true

/-- **`process`**: a command in sequence is carried out. -/
def process (r : ReferenceBook) (command : Command) (events : List Event) :
    Except Fault (ReferenceBook × List Event) :=
  if command.sequence ≠ r.lastSequence + 1 then r.reject events command .sequenceGap
  else
    let r := { r with lastSequence := command.sequence }
    match command.type with
    | .new => r.submit command events false
    | .cancel => r.cancel command events false
    | .replace => r.replace command events

/-- The commands of a list one after another, with the events of each. -/
def run (r : ReferenceBook) : List Command → Except Fault (ReferenceBook × List (List Event))
  | [] => .ok (r, [])
  | c :: cs => do
    let (r', events) ← r.process c []
    let (r'', rest) ← run r' cs
    .ok (r'', events :: rest)

end ReferenceBook

end Dme
