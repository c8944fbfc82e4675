import MatchingEngine.Ladder
import MatchingEngine.FixedHash
import MatchingEngine.Lib.Bitmap

/-!
# The order book

`OrderBook` of `order_book.cpp`: two price ladders, their activity bitmaps, an arena of order nodes
linked into one queue per level, a stack of free nodes and the order-id index.

Each member function takes the book and returns it changed, or the `Fault` that stops it: an
index outside a vector, `back()` of the empty free stack, a counter taken below zero, a loop that
does not end, or a thrown exception. Appended events are added at the end of a list.

* `addResting`, `removeNode`: the two functions that change the structure of the book.
* `canFullyFill`, `matchStep`, `matchLoop`, `submit`, `cancel`, `replace`, **`process`**.
* `restingOrders`, `restore`: reading the book out and building it again.
-/

set_option autoImplicit false

namespace Dme

/-- The counters of a book. -/
structure BookStats where
  lastSequence : Sequence := 0
  commands : UInt64 := 0
  trades : UInt64 := 0
  rejected : UInt64 := 0
  restingOrders : ℕ := 0
deriving DecidableEq, Repr

/-- A resting order as the book lists it. -/
structure RestingOrder where
  orderId : OrderId := 0
  side : Side := .buy
  price : Price := 0
  quantity : Quantity := 0
  priority : Sequence := 0
deriving DecidableEq, Repr

/-- The link that ends a queue. -/
def invalidNode : UInt32 := 0xffffffff

/-- A node of the arena: an order, and its neighbours in the queue of its level. -/
structure OrderNode where
  id : OrderId := 0
  price : Price := 0
  remaining : Quantity := 0
  priority : Sequence := 0
  previous : UInt32 := invalidNode
  next : UInt32 := invalidNode
  side : Side := .buy
deriving DecidableEq, Repr

instance : Inhabited OrderNode := ⟨{}⟩

/-- A level: the ends of its queue, the number of its orders and the sum of their quantities, which may
wrap. -/
structure PriceLevel where
  totalQuantity : Quantity := 0
  head : UInt32 := invalidNode
  tail : UInt32 := invalidNode
  count : UInt32 := 0
deriving DecidableEq, Repr

instance : Inhabited PriceLevel := ⟨{}⟩

/-- The book. `freeNodes` is the stack of free nodes, its back first. -/
structure OrderBook where
  config : BookConfig
  priceCount : ℕ
  bids : Array PriceLevel
  asks : Array PriceLevel
  bidBits : Array UInt64
  askBits : Array UInt64
  nodes : Array OrderNode
  freeNodes : List UInt32
  orderIndex : FixedOrderIndex
  stats : BookStats
deriving DecidableEq, Repr

/-- The event of a command. -/
def eventOf (type : EventType) (command : Command) (contra : OrderId) (price : Price)
    (quantity : Quantity) (reason : RejectReason) : Event :=
  ⟨command.sequence, type, command.side, reason, 0, command.orderId, contra, price, quantity⟩

/-- `emit`: an event is appended. -/
def emit (events : List Event) (type : EventType) (command : Command) (contra : OrderId)
    (price : Price) (quantity : Quantity) (reason : RejectReason) : List Event :=
  events ++ [eventOf type command contra price quantity reason]

namespace OrderBook

/-- The constructor. -/
def new (config : BookConfig) : Except Fault OrderBook := do
  let priceCount ← checkedPriceCount config
  let bids ← vecNew 24 priceCount {}
  let asks ← vecNew 24 priceCount {}
  let bidBits ← vecNew 8 ((priceCount + 63) / 64) 0
  let askBits ← vecNew 8 ((priceCount + 63) / 64) 0
  let nodes ← vecNew 48 config.maximumOrders.toNat {}
  let orderIndex ← FixedOrderIndex.new config.maximumOrders.toNat
  .ok {
    config, priceCount, bids, asks, bidBits, askBits, nodes
    freeNodes := (List.range config.maximumOrders.toNat).map UInt32.ofNat
    orderIndex
    stats := {} }

/-- The ladder of a side. -/
def levels (b : OrderBook) : Side → Array PriceLevel
  | .buy => b.bids
  | .sell => b.asks

/-- The book with another ladder for a side. -/
def setLevels (b : OrderBook) (side : Side) (levels : Array PriceLevel) : OrderBook :=
  match side with
  | .buy => { b with bids := levels }
  | .sell => { b with asks := levels }

/-- The activity bitmap of a side. -/
def bits (b : OrderBook) : Side → Array UInt64
  | .buy => b.bidBits
  | .sell => b.askBits

/-- The book with another bitmap for a side. -/
def setBits (b : OrderBook) (side : Side) (bits : Array UInt64) : OrderBook :=
  match side with
  | .buy => { b with bidBits := bits }
  | .sell => { b with askBits := bits }

/-- `set_active`: the bit of a level is set. -/
def setActive (b : OrderBook) (side : Side) (index : ℕ) : Except Fault OrderBook := do
  let word ← vecGet (b.bits side) (index / 64)
  let bits ← vecSet (b.bits side) (index / 64) (word ||| (1 : UInt64) <<< UInt64.ofNat (index % 64))
  .ok (b.setBits side bits)

/-- `clear_active`: the bit of a level is cleared. -/
def clearActive (b : OrderBook) (side : Side) (index : ℕ) : Except Fault OrderBook := do
  let word ← vecGet (b.bits side) (index / 64)
  let bits ← vecSet (b.bits side) (index / 64)
    (word &&& ~~~ ((1 : UInt64) <<< UInt64.ofNat (index % 64)))
  .ok (b.setBits side bits)

/-- The upward scan of `best_index`, over `words` words from `word` on. -/
def lowestActive (bits : Array UInt64) : ℕ → ℕ → Except Fault ℕ
  | 0, _ => .ok noPrice
  | words + 1, word => do
    let w ← vecGet bits word
    if w ≠ 0 then .ok (word * 64 + Bitmap.countrZero w) else lowestActive bits words (word + 1)

/-- The downward scan of `best_index`, over the words below `word`. -/
def highestActive (bits : Array UInt64) : ℕ → Except Fault ℕ
  | 0 => .ok noPrice
  | word + 1 => do
    let w ← vecGet bits word
    if w ≠ 0 then .ok (word * 64 + (63 - Bitmap.countlZero w)) else highestActive bits word

/-- `best_index`: the lowest active level of the asks, the highest one of the bids. -/
def bestIndex (b : OrderBook) : Side → Except Fault ℕ
  | .sell => lowestActive b.askBits b.askBits.size 0
  | .buy => highestActive b.bidBits b.bidBits.size

/-- `best_bid`; `0` without bids. -/
def bestBid (b : OrderBook) : Except Fault Price := do
  let index ← b.bestIndex .buy
  .ok (if index = noPrice then 0 else b.config.indexPrice index)

/-- `best_ask`; `0` without asks. -/
def bestAsk (b : OrderBook) : Except Fault Price := do
  let index ← b.bestIndex .sell
  .ok (if index = noPrice then 0 else b.config.indexPrice index)

/-- `quantity_at`; nothing rests at a price that is not valid. -/
def quantityAt (b : OrderBook) (side : Side) (price : Price) : Except Fault Quantity :=
  if b.config.validPrice price then do
    let level ← vecGet (b.levels side) (b.config.priceIndex price)
    .ok level.totalQuantity
  else .ok 0

/-- `crosses`; no level at all does not cross. -/
def crosses (b : OrderBook) (aggressor : Side) (limit : Price) (oppositeIndex : ℕ) : Bool :=
  if oppositeIndex = noPrice then false
  else crossesPrice aggressor limit (b.config.indexPrice oppositeIndex)

/-- `while (index < price_count_ && levels[index].count == 0) ++index;` -/
def skipUp (b : OrderBook) (levels : Array PriceLevel) : ℕ → ℕ → Except Fault ℕ
  | 0, _ => .error .endless
  | fuel + 1, index =>
    if index < b.priceCount then do
      let level ← vecGet levels index
      if level.count = 0 then skipUp b levels fuel (index + 1) else .ok index
    else .ok index

/-- The downward scan past empty levels; `none` when it reaches the bottom of the ladder. -/
def skipDown (levels : Array PriceLevel) : ℕ → Except Fault (Option ℕ)
  | 0 => do
    let level ← vecGet levels 0
    if level.count = 0 then .ok none else .ok (some 0)
  | index + 1 => do
    let level ← vecGet levels (index + 1)
    if level.count = 0 then skipDown levels index else .ok (some (index + 1))

/-- The loop of `can_fully_fill`. -/
def fillWalk (b : OrderBook) (side : Side) (limit : Price) (quantity : Quantity)
    (levels : Array PriceLevel) : ℕ → ℕ → Quantity → Except Fault Bool
  | 0, _, _ => .error .endless
  | fuel + 1, index, available =>
    if index ≠ noPrice ∧ b.crosses side limit index then do
      let level ← vecGet levels index
      let atLevel := level.totalQuantity
      if atLevel ≥ quantity - available then .ok true
      else
        let available := available + atLevel
        match side with
        | .buy =>
          if index + 1 ≥ b.priceCount then .ok false
          else do
            let index ← b.skipUp levels (b.priceCount + 1) (index + 1)
            if index ≥ b.priceCount then .ok false
            else fillWalk b side limit quantity levels fuel index available
        | .sell =>
          match index with
          | 0 => .ok false
          | index + 1 => do
            match ← skipDown levels index with
            | none => .ok false
            | some index => fillWalk b side limit quantity levels fuel index available
    else .ok false

/-- `can_fully_fill`: the preflight of an order, from the best opposite level on. -/
def canFullyFill (b : OrderBook) (side : Side) (limit : Price) (quantity : Quantity) :
    Except Fault Bool := do
  let index ← b.bestIndex side.opposite
  fillWalk b side limit quantity (b.levels side.opposite) (b.priceCount + 1) index 0

/-- Linking a node at the tail of a level. -/
def linkTail (nodes : Array OrderNode) (level : PriceLevel) (nodeIndex : UInt32) :
    Except Fault (Array OrderNode × PriceLevel) :=
  if level.tail ≠ invalidNode then do
    let last ← vecGet nodes level.tail.toNat
    let nodes ← vecSet nodes level.tail.toNat { last with next := nodeIndex }
    .ok (nodes, level)
  else .ok (nodes, { level with head := nodeIndex })

/-- `add_resting`: a free node joins the queue of its level. -/
def addResting (b : OrderBook) (id : OrderId) (side : Side) (price : Price) (quantity : Quantity)
    (priority : Sequence) (events : List Event) : Except Fault (OrderBook × List Event) :=
  match b.freeNodes with
  | [] => .error .emptyBack
  | nodeIndex :: freeNodes => do
    let levelIndex := b.config.priceIndex price
    let level ← vecGet (b.levels side) levelIndex
    let nodes ← vecSet b.nodes nodeIndex.toNat
      { id, price, remaining := quantity, priority, previous := level.tail, side }
    let (nodes, level) ← linkTail nodes level nodeIndex
    let level := { level with
      tail := nodeIndex
      totalQuantity := level.totalQuantity + quantity
      count := level.count + 1 }
    let levels ← vecSet (b.levels side) levelIndex level
    let b := { b with nodes, freeNodes }.setLevels side levels
    let b ← (if level.count = 1 then b.setActive side levelIndex else .ok b)
    let (inserted, orderIndex) ← b.orderIndex.insert id nodeIndex
    if inserted = false then .error (.logicError "order index insert failed")
    else
      let stats := { b.stats with restingOrders := b.stats.restingOrders + 1 }
      let eventCommand : Command := ⟨priority, .new, side, .limit, 0, id, price, quantity⟩
      .ok ({ b with orderIndex, stats }, emit events .rested eventCommand 0 price quantity .none)

/-- Unlinking a node from its predecessor, or from the head of its level. -/
def unlinkPrevious (nodes : Array OrderNode) (level : PriceLevel) (node : OrderNode) :
    Except Fault (Array OrderNode × PriceLevel) :=
  if node.previous ≠ invalidNode then do
    let before ← vecGet nodes node.previous.toNat
    let nodes ← vecSet nodes node.previous.toNat { before with next := node.next }
    .ok (nodes, level)
  else .ok (nodes, { level with head := node.next })

/-- Unlinking a node from its successor, or from the tail of its level. -/
def unlinkNext (nodes : Array OrderNode) (level : PriceLevel) (node : OrderNode) :
    Except Fault (Array OrderNode × PriceLevel) :=
  if node.next ≠ invalidNode then do
    let after ← vecGet nodes node.next.toNat
    let nodes ← vecSet nodes node.next.toNat { after with previous := node.previous }
    .ok (nodes, level)
  else .ok (nodes, { level with tail := node.previous })

/-- `remove_node`: a node leaves its queue and is free again. -/
def removeNode (b : OrderBook) (nodeIndex : UInt32) : Except Fault OrderBook := do
  let node ← vecGet b.nodes nodeIndex.toNat
  let levelIndex := b.config.priceIndex node.price
  let level ← vecGet (b.levels node.side) levelIndex
  let (nodes, level) ← unlinkPrevious b.nodes level node
  -- `node` is a reference, so it is read again after each write to the arena
  let node ← vecGet nodes nodeIndex.toNat
  let (nodes, level) ← unlinkNext nodes level node
  let node ← vecGet nodes nodeIndex.toNat
  if level.count = 0 then .error .underflow
  else
    let level := { level with
      totalQuantity := level.totalQuantity - node.remaining
      count := level.count - 1 }
    let levels ← vecSet (b.levels node.side) levelIndex level
    let b := { b with nodes }.setLevels node.side levels
    let b ← (if level.count = 0 then b.clearActive node.side levelIndex else .ok b)
    let (_, orderIndex) ← b.orderIndex.erase node.id
    let nodes ← vecSet b.nodes nodeIndex.toNat {}
    if b.stats.restingOrders = 0 then .error .underflow
    else
      let stats := { b.stats with restingOrders := b.stats.restingOrders - 1 }
      .ok { b with orderIndex, nodes, freeNodes := nodeIndex :: b.freeNodes, stats }

/-- `++stats_.rejected` and the `Rejected` event. -/
def reject (b : OrderBook) (events : List Event) (command : Command) (reason : RejectReason) :
    OrderBook × List Event :=
  ({ b with stats := { b.stats with rejected := b.stats.rejected + 1 } },
    emit events .rejected command 0 0 0 reason)

/-- The variables of the matching loop. -/
structure Matching where
  book : OrderBook
  remaining : Quantity
  events : List Event
deriving DecidableEq, Repr

/-- One iteration of the matching loop; `none` is the `break`. -/
def matchStep (command : Command) (effectiveLimit : Price) (m : Matching) :
    Except Fault (Option Matching) := do
  let oppositeSide := command.side.opposite
  let oppositeIndex ← m.book.bestIndex oppositeSide
  if m.book.crosses command.side effectiveLimit oppositeIndex = false then .ok none
  else
    let level ← vecGet (m.book.levels oppositeSide) oppositeIndex
    let restingIndex := level.head
    let resting ← vecGet m.book.nodes restingIndex.toNat
    let traded := min m.remaining resting.remaining
    let nodes ← vecSet m.book.nodes restingIndex.toNat
      { resting with remaining := resting.remaining - traded }
    let levels ← vecSet (m.book.levels oppositeSide) oppositeIndex
      { level with totalQuantity := level.totalQuantity - traded }
    let stats := { m.book.stats with trades := m.book.stats.trades + 1 }
    let book := { m.book with nodes, stats }.setLevels oppositeSide levels
    let events := emit m.events .trade command resting.id resting.price traded .none
    let book ← (if resting.remaining - traded = 0 then book.removeNode restingIndex else .ok book)
    .ok (some ⟨book, m.remaining - traded, events⟩)

/-- The matching loop. -/
def matchLoop (command : Command) (effectiveLimit : Price) : ℕ → Matching → Except Fault Matching
  | 0, _ => .error .endless
  | fuel + 1, m =>
    if m.remaining > 0 then do
      match ← matchStep command effectiveLimit m with
      | none => .ok m
      | some m' => matchLoop command effectiveLimit fuel m'
    else .ok m

/-- The limit of a command; a market order takes the end of the ladder. -/
def effectiveLimit (b : OrderBook) (command : Command) : Price :=
  if command.orderType = .market then
    (if command.side = .buy then b.config.maximumPrice else b.config.minimumPrice)
  else command.price

/-- The part of `submit` after its checks. -/
def execute (b : OrderBook) (command : Command) (events : List Event) (replacement : Bool) :
    Except Fault (OrderBook × List Event) := do
  let events := if replacement then events else emit events .accepted command 0 0 0 .none
  let m ← matchLoop command (b.effectiveLimit command) (b.nodes.size + 2)
    ⟨b, command.quantity, events⟩
  if m.remaining = 0 then .ok (m.book, m.events)
  else if command.orderType = .limit then
    m.book.addResting command.orderId command.side command.price m.remaining command.sequence m.events
  else .ok (m.book, emit m.events .cancelled command 0 command.price m.remaining .none)

/-- `submit`: the checks of an order, in the order of the source. -/
def submit (b : OrderBook) (command : Command) (events : List Event) (replacement : Bool) :
    Except Fault (OrderBook × List Event) :=
  if command.quantity = 0 then .ok (b.reject events command .invalidQuantity)
  else if command.orderType ≠ .market ∧ b.config.validPrice command.price = false then
    .ok (b.reject events command .invalidPrice)
  else do
    let found ← (if replacement then .ok none else b.orderIndex.find command.orderId)
    if found ≠ none then .ok (b.reject events command .duplicateOrderId)
    else
      let wouldFill ← (if command.orderType = .fillOrKill then
          b.canFullyFill command.side (b.effectiveLimit command) command.quantity else .ok true)
      if wouldFill = false then .ok (b.reject events command .wouldNotFill)
      else
        let hasRoom ← (if b.freeNodes = [] ∧ command.orderType = .limit then
            b.canFullyFill command.side (b.effectiveLimit command) command.quantity else .ok true)
        if hasRoom = false then .ok (b.reject events command .bookCapacity)
        else b.execute command events replacement

/-- `cancel`; within a replace command it emits nothing. -/
def cancel (b : OrderBook) (command : Command) (events : List Event) (replacing : Bool) :
    Except Fault (OrderBook × List Event) := do
  match ← b.orderIndex.find command.orderId with
  | none => .ok (b.reject events command .unknownOrderId)
  | some index =>
    let node ← vecGet b.nodes index.toNat
    let b ← b.removeNode index
    .ok (b, if replacing then events
      else emit events .cancelled command 0 node.price node.remaining .none)

/-- `replace`: a cancel without its event, then a limit order under the same id. -/
def replace (b : OrderBook) (command : Command) (events : List Event) :
    Except Fault (OrderBook × List Event) := do
  match ← b.orderIndex.find command.orderId with
  | none => .ok (b.reject events command .unknownOrderId)
  | some index =>
    if command.quantity = 0 ∨ b.config.validPrice command.price = false then
      .ok (b.reject events command
        (if command.quantity = 0 then .invalidQuantity else .invalidPrice))
    else
      let node ← vecGet b.nodes index.toNat
      let (b, events) ← b.cancel command events true
      let replacement := { command with side := node.side, orderType := .limit }
      let events := emit events .replaced replacement 0 replacement.price replacement.quantity .none
      b.submit replacement events true

/-- **`process`**: a command in sequence is counted and carried out. -/
def process (b : OrderBook) (command : Command) (events : List Event) :
    Except Fault (OrderBook × List Event) :=
  if command.sequence ≠ b.stats.lastSequence + 1 then .ok (b.reject events command .sequenceGap)
  else
    let b := { b with stats := { b.stats with
      lastSequence := command.sequence
      commands := b.stats.commands + 1 } }
    match command.type with
    | .new => b.submit command events false
    | .cancel => b.cancel command events false
    | .replace => b.replace command events

/-! ## Reading the book out, and restoring it -/

/-- The order of a node. -/
def restingOrder (node : OrderNode) : RestingOrder :=
  ⟨node.id, node.side, node.price, node.remaining, node.priority⟩

/-- The orders from node `node` to the end of its queue. -/
def queueFrom (b : OrderBook) : ℕ → UInt32 → Except Fault (List RestingOrder)
  | 0, _ => .error .endless
  | fuel + 1, node =>
    if node ≠ invalidNode then do
      let order ← vecGet b.nodes node.toNat
      let rest ← queueFrom b fuel order.next
      .ok (restingOrder order :: rest)
    else .ok []

/-- The orders resting at a level. -/
def queueAt (b : OrderBook) (side : Side) (index : ℕ) : Except Fault (List RestingOrder) := do
  let level ← vecGet (b.levels side) index
  b.queueFrom (b.nodes.size + 1) level.head

/-- The orders resting below level `price`. -/
def restingBelow (b : OrderBook) : ℕ → Except Fault (List RestingOrder)
  | 0 => .ok []
  | price + 1 => do
    let result ← restingBelow b price
    let bids ← b.queueAt .buy price
    let asks ← b.queueAt .sell price
    .ok (result ++ bids ++ asks)

/-- `resting_orders`: level by level from the bottom, bids before asks. -/
def restingOrders (b : OrderBook) : Except Fault (List RestingOrder) := b.restingBelow b.priceCount

/-- The loop of `restore`, with the book as it stands when an exception leaves it. -/
def restoreLoop (lastSequence : Sequence) :
    OrderBook → List RestingOrder → OrderBook × Except Fault Unit
  | b, [] => (b, .ok ())
  | b, order :: orders =>
    if b.config.validPrice order.price = false ∨ order.quantity = 0 ∨ order.priority > lastSequence
    then (b, .error (.runtimeError "invalid resting order in snapshot"))
    else match b.orderIndex.find order.orderId with
      | .error e => (b, .error e)
      | .ok (some _) => (b, .error (.runtimeError "invalid resting order in snapshot"))
      | .ok none =>
        match b.addResting order.orderId order.side order.price order.quantity order.priority [] with
        | .error e => (b, .error e)
        | .ok (b', _) => restoreLoop lastSequence b' orders

/-- The book after the call, and whether it returned or threw. -/
def restore (b : OrderBook) (lastSequence : Sequence) (orders : List RestingOrder) :
    OrderBook × Except Fault Unit :=
  if b.stats.restingOrders ≠ 0 ∨ b.stats.lastSequence ≠ 0 ∨
      orders.length > b.config.maximumOrders.toNat then
    (b, .error (.logicError "restore requires an empty book with sufficient capacity"))
  else
    match restoreLoop lastSequence b
        (orders.insertionSort fun left right => left.priority ≤ right.priority) with
    | (b', .ok ()) => ({ b' with stats := { b'.stats with lastSequence } }, .ok ())
    | (b', .error e) => (b', .error e)

/-- The commands of a list one after another, with the events of each. -/
def run (b : OrderBook) : List Command → Except Fault (OrderBook × List (List Event))
  | [] => .ok (b, [])
  | c :: cs => do
    let (b', events) ← b.process c []
    let (b'', rest) ← run b' cs
    .ok (b'', events :: rest)

end OrderBook

end Dme
