import Exchanges.Cache.Orders

/-!
Positions in the cache, by position id, by instrument and by venue id.
-/

namespace Exchanges.Cache

open Exchanges.Lib Exchanges.Model

/-- Remove what the position stored under the same id put into the indexes. The
venue id stays if the new position carries it too. -/
def removeExistingPosition (c : Cache) (position : PositionStatusReport) : Cache :=
  match c.positions.get (position.accountID, position.positionID) with
  | none => c
  | some existing =>
    { c with
      positionVenues :=
        if existing.venuePositionID ≠ "" ∧
            existing.venuePositionID ≠ position.venuePositionID then
          c.positionVenues.delete (position.accountID, existing.venuePositionID)
        else c.positionVenues
      positionStrategies :=
        removeOrderIndex c.positionStrategies existing.accountID
          existing.metadata.strategyID existing.positionID }

/-- Write a position and its indexes. -/
def insertPosition (c : Cache) (position : PositionStatusReport) : Cache :=
  { c with
    positions := c.positions.put (position.accountID, position.positionID) position
    positionInst :=
      c.positionInst.put (position.accountID, position.instrumentID) position.positionID
    positionVenues :=
      addOrderID c.positionVenues position.accountID position.venuePositionID
        position.positionID
    positionStrategies :=
      addOrderIndex c.positionStrategies position.accountID position.metadata.strategyID
        position.positionID }

def storePosition (c : Cache) (position : PositionStatusReport) : Cache :=
  (c.removeExistingPosition position).insertPosition position

theorem positions_storePosition (c : Cache) (p : PositionStatusReport) :
    (c.storePosition p).positions = c.positions.put (p.accountID, p.positionID) p := by
  unfold storePosition removeExistingPosition
  split <;> rfl

theorem positionInst_storePosition (c : Cache) (p : PositionStatusReport) :
    (c.storePosition p).positionInst =
      c.positionInst.put (p.accountID, p.instrumentID) p.positionID := by
  unfold storePosition removeExistingPosition
  split <;> rfl

theorem accounts_storePosition (c : Cache) (p : PositionStatusReport) :
    (c.storePosition p).accounts = c.accounts := by
  unfold storePosition removeExistingPosition
  split <;> rfl

theorem instruments_storePosition (c : Cache) (p : PositionStatusReport) :
    (c.storePosition p).instruments = c.instruments := by
  unfold storePosition removeExistingPosition
  split <;> rfl

theorem fills_storePosition (c : Cache) (p : PositionStatusReport) :
    (c.storePosition p).fills = c.fills := by
  unfold storePosition removeExistingPosition
  split <;> rfl

theorem deferredFills_storePosition (c : Cache) (p : PositionStatusReport) :
    (c.storePosition p).deferredFills = c.deferredFills := by
  unfold storePosition removeExistingPosition
  split <;> rfl

theorem orders_storePosition (c : Cache) (p : PositionStatusReport) :
    (c.storePosition p).orders = c.orders := by
  unfold storePosition removeExistingPosition
  split <;> rfl

def putPosition (c : Cache) (position : PositionStatusReport) : Except Err Cache := do
  position.validate
  return c.storePosition position

def position (c : Cache) (accountID : AccountID) (positionID : PositionID) :
    Option PositionStatusReport :=
  c.positions.get (accountID, positionID)

def positionByInstrument (c : Cache) (accountID : AccountID) (instrumentID : InstrumentID) :
    Option PositionStatusReport := do
  let positionID ← c.positionInst.get (accountID, instrumentID)
  c.positions.get (accountID, positionID)

def positionByVenueID (c : Cache) (accountID : AccountID) (venuePositionID : VenuePositionID) :
    Option PositionStatusReport := do
  let positionID ← c.positionVenues.get (accountID, venuePositionID)
  c.positions.get (accountID, positionID)

def positionIsOpen (position : PositionStatusReport) : Bool :=
  decide (position.side ≠ .flat) && decide (position.quantity ≠ 0)

/-- Positions are listed by instrument, and those of one instrument by id. -/
def positionLE (a b : PositionStatusReport) : Prop :=
  if a.instrumentID = b.instrumentID then a.positionID ≤ b.positionID
  else a.instrumentID.string ≤ b.instrumentID.string

instance : DecidableRel positionLE := fun a b => by unfold positionLE; infer_instance

def sortPositions (positions : List PositionStatusReport) : List PositionStatusReport :=
  positions.insertionSort positionLE

def openPositions (c : Cache) (accountID : AccountID) : List PositionStatusReport :=
  sortPositions ((c.positions.row accountID).filter positionIsOpen)

def closedPositions (c : Cache) (accountID : AccountID) : List PositionStatusReport :=
  sortPositions ((c.positions.row accountID).filter fun p => !positionIsOpen p)

def positionsByStrategy (c : Cache) (accountID : AccountID) (strategyID : StrategyID) :
    List PositionStatusReport :=
  sortPositions ((c.positionStrategies.rowKeys (accountID, strategyID)).filterMap fun positionID =>
    c.positions.get (accountID, positionID))

/-- Positions of an instrument in every account, by account and position id. -/
def positionsForInstrument (c : Cache) (instrumentID : InstrumentID) :
    List PositionStatusReport :=
  ((c.positions.entries.map Prod.snd).filter fun p =>
    decide (p.instrumentID = instrumentID)).insertionSort fun a b =>
      if a.accountID = b.accountID then a.positionID ≤ b.positionID
      else a.accountID ≤ b.accountID

end Exchanges.Cache
