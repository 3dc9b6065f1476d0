import Exchanges.Execution.OrderHistory

/-!
Which fills the manager takes for duplicates.

Fills are stored by account, order and trade, but a fill is looked up by account
and trade alone. A venue that numbers its trades per instrument reports two
trades of one account under one number, and the fill of the second order is then
taken for a duplicate.
-/

namespace Exchanges.Execution

open Exchanges.Lib Exchanges.Model Exchanges.Cache

set_option linter.unusedSectionVars false

section

variable [DecimalPackage] {m : Manager} {c : Cache} {f : FillReport} {o : OrderStatusReport}

/-- The fill is discarded as a duplicate only if a fill of its account, order and
trade is stored. -/
def DiscardsDuplicate (m : Manager) (c : Cache) (f : FillReport) : Prop :=
  ((applyFill m f).run c).1 = .ok false →
    ∃ g, c.fills.get (fillKey f) = some g ∧ fillKey g = fillKey f

/-- The trade id is that of a stored fill of another order, and of none of the
fill's own order. -/
def TakenElsewhere (c : Cache) (f : FillReport) : Prop :=
  (∃ i g, c.fills.get ((f.accountID, i), f.tradeID) = some g) ∧ c.fills.get (fillKey f) = none

theorem known_iff_stored (hc : Reachable c) :
    Known c f ↔ ∃ i g, c.fills.get ((f.accountID, i), f.tradeID) = some g := by
  rw [Known, Option.isSome_iff_exists]
  constructor
  · rintro ⟨g, hg⟩
    exact hc.validated.traded _ _ g hg
  · rintro ⟨i, g, hg⟩
    exact hc.consistent.keyed.trades _ i _ g hg

/-- A fill of a known order is discarded exactly when its trade is known. -/
theorem discarded_iff_known (hc : Reachable c) (hf : f.WellFormed)
    (ho : orderOfFill c f = some o) : ((applyFill m f).run c).1 = .ok false ↔ Known c f := by
  constructor
  · intro hfalse
    by_contra hnew
    have hwf := hc.validated.orders _ o (order_of_orderOfFill hc.consistent.orders ho)
    by_cases hfits : Fits o f
    · rw [run_applyFill_counted hc.consistent hf ho hwf hnew hfits] at hfalse
      cases hfalse
    · obtain ⟨err, hrun⟩ := run_applyFill_overfill (m := m) hc.consistent hf ho hwf hnew hfits
      rw [hrun] at hfalse
      cases hfalse
  · intro hknown
    rw [run_applyFill_known hf hknown]

theorem discardsDuplicate_iff (hc : Reachable c) (hf : f.WellFormed)
    (ho : orderOfFill c f = some o) : DiscardsDuplicate m c f ↔ ¬ TakenElsewhere c f := by
  rw [DiscardsDuplicate, discarded_iff_known hc hf ho, known_iff_stored hc]
  constructor
  · rintro h ⟨htaken, hnone⟩
    obtain ⟨g, hg, -⟩ := h htaken
    cases hnone.symm.trans hg
  · intro h htaken
    cases hget : c.fills.get (fillKey f) with
    | none => exact absurd ⟨htaken, hget⟩ h
    | some g => exact ⟨g, rfl, (hc.validated.fills _ g hget).1⟩

/-- Over any sequence of fills: only duplicates are discarded, exactly when no
fill carries a trade id that is taken by a fill of another order. -/
theorem discards_only_duplicates_iff (hc : Reachable c) (fills : List FillReport) :
    (∀ pre f, pre ++ [f] <+: fills → f.WellFormed →
        (orderOfFill (afterCalls m c (pre.map .fill)) f).isSome →
        DiscardsDuplicate m (afterCalls m c (pre.map .fill)) f) ↔
      ∀ pre f, pre ++ [f] <+: fills → f.WellFormed →
        (orderOfFill (afterCalls m c (pre.map .fill)) f).isSome →
        ¬ TakenElsewhere (afterCalls m c (pre.map .fill)) f := by
  refine forall_congr' fun pre => forall_congr' fun f => forall_congr' fun _ =>
    forall_congr' fun hf => forall_congr' fun ho => ?_
  obtain ⟨o, ho⟩ := Option.isSome_iff_exists.mp ho
  exact discardsDuplicate_iff (reachable_afterCalls hc _) hf ho

end

/-- An order on another instrument, and a fill of it that has the trade id of
the sample fill. -/
def otherReport : OrderStatusReport :=
  { Account.sampleReport with orderID := "order-2", instrumentID := ⟨"ETH-USDT-PERP", "BINANCE"⟩ }

def otherFill : FillReport :=
  { Account.sampleFill1 with orderID := "order-2", instrumentID := ⟨"ETH-USDT-PERP", "BINANCE"⟩ }

/-- A cache that knows the two orders. -/
def twoOrders : Cache :=
  @afterCalls exactDecimals {} new [.report Account.sampleReport, .report otherReport]

theorem discards_only_duplicates_iff_sample :
    (orderOfFill twoOrders Account.sampleFill1).isSome ∧
      ∀ pre f, pre ++ [f] <+: [Account.sampleFill1] → f.WellFormed →
        (orderOfFill (@afterCalls exactDecimals {} twoOrders (pre.map .fill)) f).isSome →
        @DiscardsDuplicate exactDecimals {}
          (@afterCalls exactDecimals {} twoOrders (pre.map .fill)) f := by
  let _ : DecimalPackage := exactDecimals
  refine ⟨by decide +kernel,
    (discards_only_duplicates_iff (reachable_afterCalls .new _) _).mpr ?_⟩
  intro pre f hpre _ _ htaken
  obtain ⟨rfl, rfl⟩ : pre = [] ∧ f = Account.sampleFill1 := by
    cases pre with
    | nil => simpa using hpre
    | cons g pre => simpa using hpre.length_le
  obtain ⟨⟨i, g, hg⟩, -⟩ := htaken
  have hempty : twoOrders.fillTrades.get ("acct", "trade-1") = none := by decide +kernel
  obtain ⟨g', hg'⟩ := (reachable_afterCalls (m := {}) (c := new) .new
    [.report Account.sampleReport, .report otherReport]).consistent.keyed.trades _ i _ g hg
  cases hempty.symm.trans hg'

/-- The second order's fill is discarded, and the order stays unfilled. -/
theorem trade_of_other_order_discarded :
    (orderOfFill (@afterCalls exactDecimals {} twoOrders [.fill Account.sampleFill1])
        otherFill).isSome ∧
      ((@applyFill exactDecimals {} otherFill).run
        (@afterCalls exactDecimals {} twoOrders [.fill Account.sampleFill1])).1 = .ok false ∧
      ¬ @DiscardsDuplicate exactDecimals {}
        (@afterCalls exactDecimals {} twoOrders [.fill Account.sampleFill1]) otherFill := by
  let _ : DecimalPackage := exactDecimals
  refine ⟨by decide +kernel, by decide +kernel, fun h => ?_⟩
  obtain ⟨g, hg, -⟩ := h (by decide +kernel)
  have hnone : (afterCalls {} twoOrders [.fill Account.sampleFill1]).fills.get
      (fillKey otherFill) = none := by decide +kernel
  cases hnone.symm.trans hg

end Exchanges.Execution
