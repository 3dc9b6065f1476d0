import Exchanges.Cache.Fills
import Exchanges.Cache.Positions

/-!
Purging the cache, and counting what is inconsistent in it.
-/

namespace Exchanges.Cache

open Exchanges.Lib Exchanges.Model

/-- A negative limit keeps everything. -/
structure PurgePolicy where
  closedOrdersLimit : ℤ := 0
  closedPositionsLimit : ℤ := 0
  accountSnapshotsLimit : ℤ := 0

structure PurgeResult where
  closedOrders : Nat := 0
  closedPositions : Nat := 0
  accountSnapshots : Nat := 0
  deriving DecidableEq, Repr

/-! ### Choosing what to purge -/

/-- All but the last `keep` elements, or none of them if `keep` is negative. -/
def dropNewest {α : Type} (keep : ℤ) (sorted : List α) : List α :=
  if keep < 0 ∨ (sorted.length : ℤ) ≤ keep then []
  else sorted.take (sorted.length - keep.toNat)

/-- Oldest first, and orders of one instant by id. -/
def orderUpdatedLE (a b : OrderStatusReport) : Prop :=
  if a.lastUpdatedTime = b.lastUpdatedTime then a.orderID ≤ b.orderID
  else a.lastUpdatedTime < b.lastUpdatedTime

instance : DecidableRel orderUpdatedLE := fun a b => by unfold orderUpdatedLE; infer_instance

def closedOrdersToPurge (orders : List OrderStatusReport) (keep : ℤ) :
    List OrderStatusReport :=
  dropNewest keep ((orders.filter orderIsClosed).insertionSort orderUpdatedLE)

/-- Oldest first, and positions of one instant by id. -/
def positionUpdatedLE (a b : PositionStatusReport) : Prop :=
  if a.timestamp = b.timestamp then a.positionID ≤ b.positionID
  else a.timestamp < b.timestamp

instance : DecidableRel positionUpdatedLE :=
  fun a b => by unfold positionUpdatedLE; infer_instance

def closedPositionsToPurge (positions : List PositionStatusReport) (keep : ℤ) :
    List PositionStatusReport :=
  dropNewest keep
    ((positions.filter fun p => !positionIsOpen p).insertionSort positionUpdatedLE)

/-! ### Purging -/

def removeOrder (c : Cache) (order : OrderStatusReport) : Cache :=
  let c := c.removeOrderIndexes order
  { c with orders := c.orders.delete (order.accountID, order.orderID) }

/-- Forget an index entry if it leads to the position that is removed. -/
def removePositionID {K : Type} [Ord K] [Std.TransOrd K]
    (ids : OrdMap (AccountID × K) PositionID) (accountID : AccountID) (key : K)
    (positionID : PositionID) : OrdMap (AccountID × K) PositionID :=
  if (ids.get (accountID, key)).getD "" = positionID then ids.delete (accountID, key) else ids

def removePosition (c : Cache) (position : PositionStatusReport) : Cache :=
  { c with
    positions := c.positions.delete (position.accountID, position.positionID)
    positionInst :=
      removePositionID c.positionInst position.accountID position.instrumentID
        position.positionID
    positionVenues :=
      if position.venuePositionID = "" then c.positionVenues
      else removePositionID c.positionVenues position.accountID position.venuePositionID
        position.positionID
    positionStrategies :=
      removeOrderIndex c.positionStrategies position.accountID position.metadata.strategyID
        position.positionID }

/-- Shorten the history of an account; the account becomes its newest snapshot. -/
def purgeAccountHistory (c : Cache) (accountID : AccountID) (limit : ℤ) : Cache × Nat :=
  let history := c.accountHistoryOf accountID
  if 0 ≤ limit ∧ limit < history.length then
    let dropped := history.length - limit.toNat
    let kept := history.drop dropped
    let c := { c with accountHistory := c.accountHistory.put accountID kept }
    match kept.getLast? with
    | none => ({ c with accounts := c.accounts.delete accountID }, dropped)
    | some newest => ({ c with accounts := c.accounts.put accountID newest }, dropped)
  else (c, 0)

def purge (c : Cache) (accountID : AccountID) (policy : PurgePolicy) : Cache × PurgeResult :=
  let orders := closedOrdersToPurge (c.orders.row accountID) policy.closedOrdersLimit
  let c := orders.foldl removeOrder c
  let positions :=
    closedPositionsToPurge (c.positions.row accountID) policy.closedPositionsLimit
  let c := positions.foldl removePosition c
  let history := c.purgeAccountHistory accountID policy.accountSnapshotsLimit
  (history.1, ⟨orders.length, positions.length, history.2⟩)

/-! ### Residuals -/

structure Residuals where
  openOrders : Nat := 0
  openPositions : Nat := 0
  deferredFills : Nat := 0
  inconsistentOrderMappings : Nat := 0
  inconsistentPositionMappings : Nat := 0
  deriving DecidableEq, Repr

/-- The ids that lead to nothing. -/
def danglingOrders (c : Cache) (accountID : AccountID) (ids : List OrderID) : Nat :=
  ids.countP fun orderID => (c.orders.get (accountID, orderID)).isNone

def danglingPositions (c : Cache) (accountID : AccountID) (ids : List PositionID) : Nat :=
  ids.countP fun positionID => (c.positions.get (accountID, positionID)).isNone

def residuals (c : Cache) (accountID : AccountID) : Residuals where
  openOrders := (c.orders.row accountID).countP fun order => order.status.isOpen
  openPositions := (c.positions.row accountID).countP positionIsOpen
  deferredFills := c.deferredFills.entries.countP fun e => decide (e.1.1.1 = accountID)
  inconsistentOrderMappings :=
    c.danglingOrders accountID (c.orderClients.row accountID) +
      c.danglingOrders accountID (c.orderVenues.row accountID)
  inconsistentPositionMappings :=
    c.danglingPositions accountID (c.positionInst.row accountID) +
      c.danglingPositions accountID (c.positionVenues.row accountID) +
      c.danglingPositions accountID
        ((c.positionStrategies.entries.filter fun e => decide (e.1.1.1 = accountID)).map
          fun e => e.1.2)

structure Snapshot where
  accountID : AccountID
  account : AccountSnapshot
  accountHistory : List AccountSnapshot
  openOrders : List OrderStatusReport
  closedOrders : List OrderStatusReport
  openPositions : List PositionStatusReport
  closedPositions : List PositionStatusReport
  deferredFills : List FillReport
  residuals : Residuals

def deferredFillsOf (c : Cache) (accountID : AccountID) : List FillReport :=
  sortFills ((c.deferredFills.entries.filter fun e => decide (e.1.1.1 = accountID)).map
    Prod.snd)

def snapshot (c : Cache) (accountID : AccountID) : Snapshot where
  accountID := accountID
  account := (c.accounts.get accountID).getD {}
  accountHistory := c.accountHistoryOf accountID
  openOrders := c.openOrders accountID
  closedOrders := c.closedOrders accountID
  openPositions := c.openPositions accountID
  closedPositions := c.closedPositions accountID
  deferredFills := c.deferredFillsOf accountID
  residuals := c.residuals accountID

end Exchanges.Cache
