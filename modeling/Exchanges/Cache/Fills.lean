import Exchanges.Cache.Basic

/-!
Fills in the cache: each trade of an order is stored once.

A fill is identified by its account, its order and its trade id. `putFill`
reports whether the fill was new. Deferred fills are kept apart: these are
fills of orders that the cache does not know yet.
-/

namespace Exchanges.Cache

open Exchanges.Lib Exchanges.Model

/-- The key of a fill. -/
def fillKey (fill : FillReport) : (AccountID × OrderID) × TradeID :=
  ((fill.accountID, fill.orderID), fill.tradeID)

/-- Write a fill and its two indexes. -/
def insertFill (c : Cache) (fill : FillReport) : Cache :=
  { c with
    fills := c.fills.put (fillKey fill) fill
    fillTrades := c.fillTrades.put (fill.accountID, fill.tradeID) fill
    fillVenues :=
      if fill.venueOrderID = "" then c.fillVenues
      else c.fillVenues.put ((fill.accountID, fill.venueOrderID), fill.tradeID) fill }

/-- Store a fill unless its trade is stored already; the answer says whether it
was stored. -/
def putFill (c : Cache) (fill : FillReport) : Except Err (Bool × Cache) := do
  fill.validate
  match c.fills.get (fillKey fill) with
  | some _ => return (false, c)
  | none => return (true, c.insertFill fill)

theorem putFill_of_stored {c : Cache} {f g : FillReport} (hf : f.WellFormed)
    (hget : c.fills.get (fillKey f) = some g) : c.putFill f = .ok (false, c) := by
  have hvalid := FillReport.validate_eq_ok.mpr hf
  simp only [putFill, hvalid, hget]
  rfl

theorem putFill_of_new {c : Cache} {f : FillReport} (hf : f.WellFormed)
    (hget : c.fills.get (fillKey f) = none) : c.putFill f = .ok (true, c.insertFill f) := by
  have hvalid := FillReport.validate_eq_ok.mpr hf
  simp only [putFill, hvalid, hget]
  rfl

def fillByTradeID (c : Cache) (accountID : AccountID) (tradeID : TradeID) :
    Option FillReport :=
  c.fillTrades.get (accountID, tradeID)

/-- Fills are ordered by time, and fills of one instant by their trade id. -/
def fillLE (a b : FillReport) : Prop :=
  if a.timestamp = b.timestamp then a.tradeID ≤ b.tradeID else a.timestamp < b.timestamp

instance : DecidableRel fillLE := fun a b => by unfold fillLE; infer_instance

def sortFills (fills : List FillReport) : List FillReport := fills.insertionSort fillLE

def fillsForOrder (c : Cache) (accountID : AccountID) (orderID : OrderID) : List FillReport :=
  sortFills (c.fills.row (accountID, orderID))

/-! ### Deferred fills -/

def putDeferredFill (c : Cache) (fill : FillReport) : Except Err (Bool × Cache) := do
  fill.validate
  match c.deferredFills.get (fillKey fill) with
  | some _ => return (false, c)
  | none => return (true, { c with deferredFills := c.deferredFills.put (fillKey fill) fill })

def deferredFillsForOrder (c : Cache) (accountID : AccountID) (orderID : OrderID) :
    List FillReport :=
  sortFills (c.deferredFills.row (accountID, orderID))

def clearDeferredFillsForOrder (c : Cache) (accountID : AccountID) (orderID : OrderID) : Cache :=
  { c with deferredFills := c.deferredFills.deleteRow (accountID, orderID) }

end Exchanges.Cache
