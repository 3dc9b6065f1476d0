import Exchanges.Execution.Manager

/-!
Reconciliation of the cache with the fills that a venue lists.

Fills older than the lookback and fills that are known are skipped. The reconciler
lets the manager apply the others, and counts what becomes of each.
-/

namespace Exchanges.Execution

open Exchanges.Lib Exchanges.Model

/-- What a reconciliation counted. -/
structure ReconciliationResult where
  caseID : String := ""
  accountID : AccountID := ""
  instrumentID : InstrumentID := {}
  accountsApplied : ℕ := 0
  ordersApplied : ℕ := 0
  fillsApplied : ℕ := 0
  fillsDeferred : ℕ := 0
  positionsApplied : ℕ := 0
  reportsScanned : ℕ := 0
  duplicatesSkipped : ℕ := 0
  lookbackSkipped : ℕ := 0
  deriving DecidableEq, Repr

/-- A reconciliation in progress. When it stops with an error, the result is
what was counted up to there. -/
structure Reconciling where
  cache : Cache
  result : ReconciliationResult := {}

/-- Run a program of the cache. -/
def onCache {α : Type} (p : Prog Cache Err α) : Prog Reconciling Err α :=
  p.zoom (·.cache) fun c s => { s with cache := c }

/-- Change the counts. -/
def count (f : ReconciliationResult → ReconciliationResult) : Prog Reconciling Err Unit :=
  Prog.modify fun s => { s with result := f s.result }

def deferredFillExists (c : Cache) (fill : FillReport) : Bool :=
  (c.deferredFillsForOrder fill.accountID fill.orderID).any fun deferred =>
    decide (deferred.tradeID = fill.tradeID)

section Reconcile

variable [DecimalPackage] (m : Manager)

/-- Apply a fill that is not deferred already, and count what became of it. -/
def reconcileFill (fill : FillReport) : Prog Reconciling Err Unit := do
  let s ← Prog.get
  if deferredFillExists s.cache fill then
    count fun r => { r with duplicatesSkipped := r.duplicatesSkipped + 1 }
  else
    let stored ← onCache (applyFill m fill)
    let s ← Prog.get
    if stored then count fun r => { r with fillsApplied := r.fillsApplied + 1 }
    else if deferredFillExists s.cache fill then
      count fun r => { r with fillsDeferred := r.fillsDeferred + 1 }
    else pure ()

/-- One report of `ReconcileMissingFills`. -/
def reconcileMissingFill (lookbackStart : Time) (fill : FillReport) :
    Prog Reconciling Err Unit := do
  Prog.lift fill.validate
  count fun r => { r with
    accountID := if r.accountID = "" then fill.accountID else r.accountID
    instrumentID := if r.instrumentID = {} then fill.instrumentID else r.instrumentID
    reportsScanned := r.reportsScanned + 1 }
  let s ← Prog.get
  if lookbackStart ≠ 0 ∧ fill.timestamp < lookbackStart then
    count fun r => { r with lookbackSkipped := r.lookbackSkipped + 1 }
  else if (s.cache.fillByTradeID fill.accountID fill.tradeID).isSome then
    count fun r => { r with duplicatesSkipped := r.duplicatesSkipped + 1 }
  else reconcileFill m fill

/-- `ReconcileMissingFills`. -/
def reconcileMissingFills (reports : List FillReport) (lookbackStart : Time) :
    Prog Reconciling Err Unit := do
  count fun _ => { caseID := "TC-REC02" }
  Prog.forEach (reconcileMissingFill m lookbackStart) reports

end Reconcile

end Exchanges.Execution
