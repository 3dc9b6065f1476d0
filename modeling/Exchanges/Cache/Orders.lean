import Exchanges.Cache.Basic

/-!
Orders in the cache: storing, indexing and looking them up.

`putOrder` normalises and validates first, and only then changes the cache. A
report may carry a client or venue order id that another stored order carries
already; the other order is then evicted. Every change of the primary map
`orders` is accompanied by changes of six indexes.
-/

namespace Exchanges.Cache

open Exchanges.Lib Exchanges.Model

/-- Fill in what a report leaves open: the leaves quantity of an open order,
and the quantities of a filled one. -/
def normalizeOrder (order : OrderStatusReport) : OrderStatusReport :=
  let order :=
    if 0 < order.quantity ∧ order.leavesQuantity = 0 ∧ order.status.isOpen then
      { order with leavesQuantity := order.quantity - order.filledQuantity }
    else order
  let order :=
    if order.status = .filled ∧ 0 < order.quantity ∧ order.filledQuantity = 0 then
      { order with filledQuantity := order.quantity }
    else order
  if order.status = .filled then { order with leavesQuantity := 0 } else order

section Indexes

/-- Add an order to an index, unless its key is empty. -/
def addOrderIndex (index : OrdMap ((AccountID × String) × OrderID) Unit)
    (accountID : AccountID) (key : String) (orderID : OrderID) :
    OrdMap ((AccountID × String) × OrderID) Unit :=
  if key = "" then index else index.put ((accountID, key), orderID) ()

/-- Remove an order from an index, unless its key is empty. -/
def removeOrderIndex (index : OrdMap ((AccountID × String) × OrderID) Unit)
    (accountID : AccountID) (key : String) (orderID : OrderID) :
    OrdMap ((AccountID × String) × OrderID) Unit :=
  if key = "" then index else index.delete ((accountID, key), orderID)

/-- Map an id of an order to the order, unless the id is empty. -/
def addOrderID (ids : OrdMap (AccountID × String) OrderID) (accountID : AccountID)
    (id : String) (orderID : OrderID) : OrdMap (AccountID × String) OrderID :=
  if id = "" then ids else ids.put (accountID, id) orderID

/-- Forget an id of an order, unless the id is empty. -/
def removeOrderID (ids : OrdMap (AccountID × String) OrderID) (accountID : AccountID)
    (id : String) : OrdMap (AccountID × String) OrderID :=
  if id = "" then ids else ids.delete (accountID, id)

def addOrderIndexes (c : Cache) (order : OrderStatusReport) : Cache :=
  { c with
    orderStrategies :=
      addOrderIndex c.orderStrategies order.accountID order.metadata.strategyID order.orderID
    orderPositions :=
      addOrderIndex c.orderPositions order.accountID order.positionID order.orderID
    orderLists :=
      addOrderIndex c.orderLists order.accountID order.orderListID order.orderID
    orderExecSpawns :=
      addOrderIndex c.orderExecSpawns order.accountID order.metadata.execSpawnID order.orderID }

def removeOrderIndexes (c : Cache) (order : OrderStatusReport) : Cache :=
  { c with
    orderStrategies :=
      removeOrderIndex c.orderStrategies order.accountID order.metadata.strategyID order.orderID
    orderPositions :=
      removeOrderIndex c.orderPositions order.accountID order.positionID order.orderID
    orderLists :=
      removeOrderIndex c.orderLists order.accountID order.orderListID order.orderID
    orderExecSpawns :=
      removeOrderIndex c.orderExecSpawns order.accountID order.metadata.execSpawnID order.orderID
    orderClients := removeOrderID c.orderClients order.accountID order.clientOrderID
    orderVenues := removeOrderID c.orderVenues order.accountID order.venueOrderID }

end Indexes

/-! ### Storing an order -/

/-- Remove the indexes of the order stored under `orderID`, if there is one. -/
def removeExistingIndexes (c : Cache) (accountID : AccountID) (orderID : OrderID) : Cache :=
  match c.orders.get (accountID, orderID) with
  | some existing => c.removeOrderIndexes existing
  | none => c

/-- Drop the order that an id is mapped to, unless it is the order `orderID`
that is about to be stored under that id. -/
def evictOrder (c : Cache) (accountID : AccountID) (orderID : OrderID)
    (existingOrderID : Option OrderID) : Cache :=
  match existingOrderID with
  | none => c
  | some existingOrderID =>
    if existingOrderID ≠ "" ∧ existingOrderID ≠ orderID then
      match c.orders.get (accountID, existingOrderID) with
      | some existing =>
        let c := c.removeOrderIndexes existing
        { c with orders := c.orders.delete (accountID, existingOrderID) }
      | none => c
    else c

def evictClientOrderID (c : Cache) (order : OrderStatusReport) : Cache :=
  if order.clientOrderID = "" then c
  else c.evictOrder order.accountID order.orderID
    (c.orderClients.get (order.accountID, order.clientOrderID))

def evictVenueOrderID (c : Cache) (order : OrderStatusReport) : Cache :=
  if order.venueOrderID = "" then c
  else c.evictOrder order.accountID order.orderID
    (c.orderVenues.get (order.accountID, order.venueOrderID))

/-- Write an order and its ids and indexes. -/
def insertOrder (c : Cache) (order : OrderStatusReport) : Cache :=
  let c := { c with
    orders := c.orders.put (order.accountID, order.orderID) order
    orderClients := addOrderID c.orderClients order.accountID order.clientOrderID order.orderID
    orderVenues := addOrderID c.orderVenues order.accountID order.venueOrderID order.orderID }
  c.addOrderIndexes order

/-- The part of `PutOrder` that runs under the lock. -/
def storeOrder (c : Cache) (order : OrderStatusReport) : Cache :=
  let c := c.removeExistingIndexes order.accountID order.orderID
  let c := c.evictClientOrderID order
  let c := c.evictVenueOrderID order
  c.insertOrder order

def putOrder (c : Cache) (order : OrderStatusReport) : Except Err Cache := do
  let order := normalizeOrder order
  order.validate
  return c.storeOrder order

/-! ### Looking orders up -/

def order (c : Cache) (accountID : AccountID) (orderID : OrderID) : Option OrderStatusReport :=
  c.orders.get (accountID, orderID)

def orderByClientID (c : Cache) (accountID : AccountID) (clientOrderID : ClientOrderID) :
    Option OrderStatusReport := do
  let orderID ← c.orderClients.get (accountID, clientOrderID)
  c.orders.get (accountID, orderID)

def orderByVenueID (c : Cache) (accountID : AccountID) (venueOrderID : VenueOrderID) :
    Option OrderStatusReport := do
  let orderID ← c.orderVenues.get (accountID, venueOrderID)
  c.orders.get (accountID, orderID)

/-- An order by the ids that are given, tried in this order. -/
def findByIDs (c : Cache) (accountID : AccountID) (orderID : OrderID)
    (clientOrderID : ClientOrderID) (venueOrderID : VenueOrderID) : Option OrderStatusReport :=
  (if orderID ≠ "" then c.order accountID orderID else none).or
    ((if clientOrderID ≠ "" then c.orderByClientID accountID clientOrderID else none).or
      (if venueOrderID ≠ "" then c.orderByVenueID accountID venueOrderID else none))

def sortOrders (orders : List OrderStatusReport) : List OrderStatusReport :=
  orders.insertionSort fun a b => a.orderID ≤ b.orderID

/-- `Orders`. -/
def ordersOf (c : Cache) (accountID : AccountID) : List OrderStatusReport :=
  sortOrders (c.orders.row accountID)

def openOrders (c : Cache) (accountID : AccountID) : List OrderStatusReport :=
  sortOrders ((c.orders.row accountID).filter fun order => order.status.isOpen)

/-- An order that is stored and no longer open. -/
def orderIsClosed (order : OrderStatusReport) : Bool :=
  decide (order.status ≠ .unset) && !order.status.isOpen

def closedOrders (c : Cache) (accountID : AccountID) : List OrderStatusReport :=
  sortOrders ((c.orders.row accountID).filter orderIsClosed)

def ordersByIDSet (c : Cache) (accountID : AccountID) (ids : List OrderID) :
    List OrderStatusReport :=
  sortOrders (ids.filterMap fun orderID => c.orders.get (accountID, orderID))

def ordersByStrategy (c : Cache) (accountID : AccountID) (strategyID : StrategyID) :
    List OrderStatusReport :=
  c.ordersByIDSet accountID (c.orderStrategies.rowKeys (accountID, strategyID))

def ordersByPositionID (c : Cache) (accountID : AccountID) (positionID : PositionID) :
    List OrderStatusReport :=
  c.ordersByIDSet accountID (c.orderPositions.rowKeys (accountID, positionID))

def ordersByOrderListID (c : Cache) (accountID : AccountID) (orderListID : OrderListID) :
    List OrderStatusReport :=
  c.ordersByIDSet accountID (c.orderLists.rowKeys (accountID, orderListID))

def ordersByExecSpawnID (c : Cache) (accountID : AccountID) (execSpawnID : ExecSpawnID) :
    List OrderStatusReport :=
  c.ordersByIDSet accountID (c.orderExecSpawns.rowKeys (accountID, execSpawnID))

/-! ### What storing an order leaves alone -/

/-- `c` with the order maps of `c'`. -/
def withOrderMaps (c c' : Cache) : Cache :=
  { c with
    orders := c'.orders
    orderClients := c'.orderClients
    orderVenues := c'.orderVenues
    orderStrategies := c'.orderStrategies
    orderPositions := c'.orderPositions
    orderLists := c'.orderLists
    orderExecSpawns := c'.orderExecSpawns }

/-- Only order maps differ. -/
def OrdersOnly (c c' : Cache) : Prop := c' = c.withOrderMaps c'

theorem OrdersOnly.refl (c : Cache) : OrdersOnly c c := rfl

theorem OrdersOnly.trans {c c' c'' : Cache} (h : OrdersOnly c c') (h' : OrdersOnly c' c'') :
    OrdersOnly c c'' := by
  unfold OrdersOnly at *
  rw [h', h]
  rfl

theorem ordersOnly_removeExistingIndexes (c : Cache) (a : AccountID) (i : OrderID) :
    OrdersOnly c (c.removeExistingIndexes a i) := by
  unfold removeExistingIndexes
  split <;> rfl

theorem ordersOnly_evictOrder (c : Cache) (a : AccountID) (i : OrderID)
    (existing : Option OrderID) : OrdersOnly c (c.evictOrder a i existing) := by
  unfold evictOrder
  split
  · rfl
  · split
    · split <;> rfl
    · rfl

theorem ordersOnly_evictClientOrderID (c : Cache) (o : OrderStatusReport) :
    OrdersOnly c (c.evictClientOrderID o) := by
  unfold evictClientOrderID
  split
  · exact .refl c
  · exact ordersOnly_evictOrder ..

theorem ordersOnly_evictVenueOrderID (c : Cache) (o : OrderStatusReport) :
    OrdersOnly c (c.evictVenueOrderID o) := by
  unfold evictVenueOrderID
  split
  · exact .refl c
  · exact ordersOnly_evictOrder ..

theorem ordersOnly_storeOrder (c : Cache) (o : OrderStatusReport) :
    OrdersOnly c (c.storeOrder o) := by
  have h1 := ordersOnly_removeExistingIndexes c o.accountID o.orderID
  have h2 := h1.trans (ordersOnly_evictClientOrderID _ o)
  have h3 := h2.trans (ordersOnly_evictVenueOrderID _ o)
  exact h3.trans rfl

section Frame

variable (c : Cache) (o : OrderStatusReport)

@[simp] theorem fills_storeOrder : (c.storeOrder o).fills = c.fills := by
  rw [ordersOnly_storeOrder c o]; rfl

@[simp] theorem fillTrades_storeOrder : (c.storeOrder o).fillTrades = c.fillTrades := by
  rw [ordersOnly_storeOrder c o]; rfl

@[simp] theorem deferredFills_storeOrder :
    (c.storeOrder o).deferredFills = c.deferredFills := by
  rw [ordersOnly_storeOrder c o]; rfl

@[simp] theorem positions_storeOrder : (c.storeOrder o).positions = c.positions := by
  rw [ordersOnly_storeOrder c o]; rfl

@[simp] theorem positionInst_storeOrder :
    (c.storeOrder o).positionInst = c.positionInst := by
  rw [ordersOnly_storeOrder c o]; rfl

end Frame

/-! ### Storing and reading back -/

section Normalize

variable (o : OrderStatusReport)

@[simp] theorem normalizeOrder_accountID : (normalizeOrder o).accountID = o.accountID := by
  simp only [normalizeOrder]
  split_ifs <;> rfl

@[simp] theorem normalizeOrder_orderID : (normalizeOrder o).orderID = o.orderID := by
  simp only [normalizeOrder]
  split_ifs <;> rfl

@[simp] theorem normalizeOrder_clientOrderID :
    (normalizeOrder o).clientOrderID = o.clientOrderID := by
  simp only [normalizeOrder]
  split_ifs <;> rfl

@[simp] theorem normalizeOrder_venueOrderID :
    (normalizeOrder o).venueOrderID = o.venueOrderID := by
  simp only [normalizeOrder]
  split_ifs <;> rfl

@[simp] theorem normalizeOrder_instrumentID :
    (normalizeOrder o).instrumentID = o.instrumentID := by
  simp only [normalizeOrder]
  split_ifs <;> rfl

@[simp] theorem normalizeOrder_status : (normalizeOrder o).status = o.status := by
  simp only [normalizeOrder]
  split_ifs <;> rfl

@[simp] theorem normalizeOrder_quantity : (normalizeOrder o).quantity = o.quantity := by
  simp only [normalizeOrder]
  split_ifs <;> rfl

/-- A filled order without a filled quantity is taken to be filled in full. -/
theorem normalizeOrder_filledQuantity : (normalizeOrder o).filledQuantity =
    if o.status = .filled ∧ 0 < o.quantity ∧ o.filledQuantity = 0 then o.quantity
    else o.filledQuantity := by
  simp only [normalizeOrder]
  split_ifs <;> simp_all

/-- Normalising keeps a report well formed. -/
theorem normalizeOrder_wellFormed {o : OrderStatusReport} (h : o.WellFormed) :
    (normalizeOrder o).WellFormed := by
  obtain ⟨h1, h2, h3, h4, h5, h6, h7, h8, h9, h10, h11⟩ := h
  simp only [normalizeOrder]
  split_ifs <;> constructor <;> simp_all

end Normalize

@[simp] theorem order_storeOrder_self (c : Cache) (o : OrderStatusReport) :
    (c.storeOrder o).orders.get (o.accountID, o.orderID) = some o :=
  OrdMap.get_put_self ..

theorem putOrder_eq_ok {c c' : Cache} {o : OrderStatusReport} :
    c.putOrder o = .ok c' ↔
      (normalizeOrder o).WellFormed ∧ c' = c.storeOrder (normalizeOrder o) := by
  simp only [putOrder, except_seq_eq_ok, OrderStatusReport.validate_eq_ok]
  constructor
  · rintro ⟨hwf, heq⟩
    cases heq
    exact ⟨hwf, rfl⟩
  · rintro ⟨hwf, rfl⟩
    exact ⟨hwf, rfl⟩

/-- A refused order changes nothing, so this is all that storing can do. -/
theorem run_putOrder {c : Cache} {o : OrderStatusReport} (hwf : (normalizeOrder o).WellFormed) :
    (Prog.update (·.putOrder o) : Prog Cache Err Unit).run c =
      (.ok (), c.storeOrder (normalizeOrder o)) :=
  Prog.run_update_ok (putOrder_eq_ok.mpr ⟨hwf, rfl⟩)

end Exchanges.Cache
