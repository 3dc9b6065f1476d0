import Exchanges.Account.Reconciler

/-!
What the reconciler does to the positions of the cache.

Accounts, order reports and fills leave the positions alone, whatever the cache
holds to begin with. A position report is stored as it is.
-/

namespace Exchanges.Account

open Exchanges.Lib Exchanges.Model Exchanges.Cache

set_option linter.unusedSectionVars false

/-- The positions that a cache holds. -/
def HoldsPositions (positions : OrdMap (AccountID × PositionID) PositionStatusReport)
    (ids : OrdMap (AccountID × InstrumentID) PositionID) (c : Cache) : Prop :=
  c.positions = positions ∧ c.positionInst = ids

variable [DecimalPackage] {positions : OrdMap (AccountID × PositionID) PositionStatusReport}
  {ids : OrdMap (AccountID × InstrumentID) PositionID}

theorem keepsPositions_putOrder (o : OrderStatusReport) :
    Prog.Keeps (HoldsPositions positions ids)
      (Prog.update (·.putOrder o) : Prog Cache Err Unit) := by
  refine .update fun c c' hput h => ?_
  obtain ⟨-, rfl⟩ := putOrder_eq_ok.mp hput
  exact ⟨by rw [positions_storeOrder, h.1], by rw [positionInst_storeOrder, h.2]⟩

theorem keepsPositions_putFill (f : FillReport) :
    Prog.Keeps (HoldsPositions positions ids)
      (Prog.step (·.putFill f) : Prog Cache Err Bool) := by
  refine .step fun c stored c' hput h => ?_
  simp only [putFill, except_seq_eq_ok] at hput
  obtain ⟨-, hput⟩ := hput
  split at hput
  · cases hput
    exact h
  · cases hput
    exact h

theorem keepsPositions_replay (a : AccountID) (i : OrderID) (fills : List FillReport) :
    Prog.Keeps (HoldsPositions positions ids) (replay a i fills) := by
  induction fills with
  | nil => exact .pure ()
  | cons f fills ih =>
    refine Prog.Keeps.get.bind fun c => ?_
    split
    · exact .pure ()
    · exact (keepsPositions_putOrder _).bind fun _ => ih

theorem keepsPositions_applyOrder (report : OrderStatusReport) :
    Prog.Keeps (HoldsPositions positions ids) (applyOrder report) := by
  refine Prog.Keeps.get.bind fun c => (Prog.Keeps.lift _).bind fun r' =>
    (keepsPositions_putOrder r').bind fun _ => ?_
  split
  · exact Prog.Keeps.get.bind fun _ => keepsPositions_replay _ _ _
  · exact .pure ()

theorem keepsPositions_applyFill (f : FillReport) :
    Prog.Keeps (HoldsPositions positions ids) (applyFill f) := by
  refine (keepsPositions_putFill _).bind fun stored => ?_
  split
  · refine Prog.Keeps.get.bind fun c => ?_
    split
    · exact .pure ()
    · exact keepsPositions_putOrder _
  · exact .pure ()

theorem keepsPositions_apply_order (report : OrderStatusReport) :
    Prog.Keeps (HoldsPositions positions ids) (apply (.ofOrder report)) :=
  (Prog.Keeps.lift _).bind fun _ => keepsPositions_applyOrder report

theorem keepsPositions_apply_fill (f : FillReport) :
    Prog.Keeps (HoldsPositions positions ids) (apply (.ofFill f)) :=
  (Prog.Keeps.lift _).bind fun _ => keepsPositions_applyFill f

/-- An event leaves the positions alone unless it is accepted as a position
report, and then it stores the reported position. -/
theorem run_apply_positions (c : Cache) (event : ExecutionEvent) :
    (match event.validate, event.account, event.order, event.fill, event.position with
      | .ok (), none, none, none, some position =>
        (apply event).run c = (.ok (), c.storePosition position)
      | _, _, _, _, _ => HoldsPositions c.positions c.positionInst ((apply event).run c).2) := by
  unfold apply
  cases hvalid : event.validate with
  | error err => exact ⟨rfl, rfl⟩
  | ok u =>
    rw [Prog.run_bind_ok (Prog.run_lift ..)]
    cases event.account with
    | some account => exact ⟨rfl, rfl⟩
    | none =>
      cases event.order with
      | some order => exact keepsPositions_applyOrder order c ⟨rfl, rfl⟩
      | none =>
        cases event.fill with
        | some fill => exact keepsPositions_applyFill fill c ⟨rfl, rfl⟩
        | none =>
          cases hposition : event.position with
          | none => exact ⟨rfl, rfl⟩
          | some position =>
            refine Prog.run_update_ok ?_
            simp only [ExecutionEvent.validate, ExecutionEvent.checkPayload, hposition,
              except_seq_eq_ok] at hvalid
            rw [putPosition, hvalid.2.2.2.2.1]
            rfl

end Exchanges.Account
