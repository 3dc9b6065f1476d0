import Exchanges.Risk.Engine

/-!
The price field of orders that have no use for it.

A market order is executed at the price of the market, and its price field says
nothing. The engine values every order at its price field as long as it is
positive, so that the field decides about the limits. `price_ignored_iff` says
for which prices no cache and no configuration tells the two orders apart.
-/

namespace Exchanges.Risk

open Exchanges.Lib Exchanges.Model

set_option linter.unusedSectionVars false

/-- The types whose orders do not use their price. -/
def IgnoresPrice (type : Model.OrderType) : Prop :=
  type = .market ∨ type = .stopMarket ∨ type = .marketIfTouched ∨ type = .trailingStopMarket

theorem IgnoresPrice.not_limitStyle {type : Model.OrderType} (h : IgnoresPrice type) :
    type.isLimitStyle = false := by
  rcases h with rfl | rfl | rfl | rfl <;> rfl

/-- The order with another price. -/
def atPrice (order : SubmitOrder) (price : Decimal) : SubmitOrder := { order with price := price }

section Price

variable [DecimalPackage] {order : SubmitOrder} {price : Decimal}

/-! ### Orders that are valued alike -/

theorem validate_atPrice (htype : order.type.isLimitStyle = false) (price : Decimal) :
    (atPrice order price).validate = order.validate := by
  unfold SubmitOrder.validate atPrice
  simp only [htype, Bool.false_eq_true, false_and]

/-- The price field is read by the estimate only. -/
theorem checkOrder_atPrice (htype : order.type.isLimitStyle = false) {e : Engine}
    (hestimate : estimatedPrice e.cache (atPrice order price) = estimatedPrice e.cache order)
    (v : Visits) (rejectDuplicateClientID existingOrder : Bool) :
    checkOrder e v (atPrice order price) rejectDuplicateClientID existingOrder =
      checkOrder e v order rejectDuplicateClientID existingOrder := by
  have hticks (inst : Instrument) : checkTicks inst (atPrice order price) = checkTicks inst order := by
    unfold checkTicks atPrice requiresLimitPrice
    simp only [htype, Bool.false_eq_true, checkIf, if_false]
  unfold checkOrder checkInstrument
  simp only [hticks, hestimate]
  rfl

theorem check_atPrice (htype : order.type.isLimitStyle = false) {e : Engine}
    (hestimate : estimatedPrice e.cache (atPrice order price) = estimatedPrice e.cache order)
    (v : Visits) (now : Time) :
    (check v now (atPrice order price)).run e = (check v now order).run e := by
  rw [run_check, run_check, validate_atPrice htype, checkOrder_atPrice htype hestimate]

theorem estimatedPrice_atPrice (c : Cache)
    (h : order.price = price ∨ ¬ 0 < order.price ∧ ¬ 0 < price) :
    estimatedPrice c (atPrice order price) = estimatedPrice c order := by
  rcases h with rfl | ⟨hold, hnew⟩
  · rfl
  · have hprice : ¬ 0 < (atPrice order price).price := hnew
    rw [estimatedPrice, estimatedPrice, if_neg hold, if_neg hprice]
    rfl

/-! ### A limit that tells two prices apart

An instrument whose ticks fit the order, a position that the order closes, and no
market data. -/

/-- A price tick that both prices are multiples of. -/
def commonTick (x y : Decimal) : Decimal := 1 / (x.den * y.den)

theorem commonTick_pos (x y : Decimal) : 0 < commonTick x y := by
  have hx : (0 : Decimal) < x.den := by exact_mod_cast x.den_pos
  have hy : (0 : Decimal) < y.den := by exact_mod_cast y.den_pos
  unfold commonTick
  positivity

theorem den_eq_one_of_int {x : Decimal} (n : ℤ) (h : x = n) : x.den = 1 := by
  rw [h]
  exact Rat.den_intCast n

theorem isMultipleOf_commonTick_left (x y : Decimal) : isMultipleOf x (commonTick x y) = true := by
  have hx : x * x.den = x.num := Rat.mul_den_eq_num x
  have hvalue : x / commonTick x y = ((x.num * y.den : ℤ) : Decimal) := by
    rw [commonTick, div_div_eq_mul_div, div_one, ← mul_assoc, hx]
    push_cast
    rfl
  rw [isMultipleOf, decide_eq_true (commonTick_pos x y), Bool.true_and,
    decide_eq_true (den_eq_one_of_int _ hvalue)]

theorem commonTick_comm (x y : Decimal) : commonTick x y = commonTick y x := by
  rw [commonTick, commonTick, mul_comm]

theorem isMultipleOf_self {x : Decimal} (hx : 0 < x) : isMultipleOf x x = true := by
  have hvalue : x / x = ((1 : ℤ) : Decimal) := by
    rw [div_self hx.ne', Int.cast_one]
  rw [isMultipleOf, decide_eq_true hx, Bool.true_and,
    decide_eq_true (den_eq_one_of_int _ hvalue)]

def fittingInstrument (order : SubmitOrder) : Instrument :=
  { id := order.instrumentID, rawSymbol := "raw", type := .equity
    priceTick := commonTick order.triggerPrice order.activationPrice
    sizeTick := order.quantity, status := .trading }

def closedPosition (order : SubmitOrder) : PositionStatusReport :=
  { accountID := order.accountID, instrumentID := order.instrumentID, positionID := "position"
    side := if order.side = .sell then .long else .short, quantity := order.quantity }

def fittingCache (order : SubmitOrder) : Cache :=
  ({ Cache.new with instruments :=
    (∅ : OrdMap InstrumentID Instrument).put order.instrumentID (fittingInstrument order) } :
      Cache).storePosition (closedPosition order)

def limitedTo (order : SubmitOrder) (limit : Decimal) : Engine :=
  { cache := fittingCache order, cfg := { maxOrderNotional := limit } }

section Valid

variable (hvalid : order.validate = .ok ())
include hvalid

theorem order_facts : order.accountID ≠ "" ∧ 0 < order.quantity ∧
    order.instrumentID.validate = .ok () := by
  simp only [SubmitOrder.validate, except_seq_eq_ok, reject_eq_ok, not_or, not_not] at hvalid
  exact ⟨hvalid.1.1, hvalid.1.2.2.2, hvalid.2.2.2.2.2.2.1⟩

theorem reachable_fittingCache : (fittingCache order).Reachable := by
  obtain ⟨haccount, hquantity, hinstrument⟩ := order_facts hvalid
  have htick := commonTick_pos order.triggerPrice order.activationPrice
  have hinst : (fittingInstrument order).validate = .ok () := by
    simp [Instrument.validate, fittingInstrument, hinstrument, InstrumentType.validate,
      InstrumentType.requiresBaseQuote, InstrumentType.requiresSettle, htick, hquantity]
  have hposition : (closedPosition order).WellFormed := by
    refine ⟨haccount, by simp [closedPosition], hinstrument, le_refl 0, ?_⟩
    unfold closedPosition
    dsimp only
    split <;> simp
  exact (Cache.Reachable.new.storeInstrument hinst).storePosition hposition

/-- The order closes the position, so it does not increase the exposure. -/
theorem increasesCurrentExposure_fittingCache :
    increasesCurrentExposure (fittingCache order) order = false := by
  obtain ⟨-, hquantity, -⟩ := order_facts hvalid
  have hposition : (fittingCache order).positionByInstrument order.accountID order.instrumentID =
      some (closedPosition order) := by
    unfold fittingCache Cache.positionByInstrument
    rw [Cache.positions_storePosition, Cache.positionInst_storePosition]
    simp [closedPosition]
  have hcurrent : currentPosition (fittingCache order) order.accountID order.instrumentID =
      if order.side = .sell then order.quantity else -order.quantity := by
    rw [currentPosition, hposition]
    simp only [Option.map_some, Option.getD_some, signedPosition, closedPosition]
    split <;> simp
  unfold increasesCurrentExposure
  dsimp only
  rw [hcurrent, applySignedOrder]
  split
  · rw [sub_self, exposureIncreased, if_neg hquantity.ne', if_pos rfl]
  · rw [neg_add_cancel, exposureIncreased, if_neg (neg_ne_zero.mpr hquantity.ne'), if_pos rfl]

/-- Under this limit the order is accepted exactly if it has a price and is not
worth more than the limit. -/
theorem check_limitedTo (htype : order.type.isLimitStyle = false) {limit : Decimal}
    (hlimit : 0 < limit) (v : Visits) (now : Time) :
    ((check v now order).run (limitedTo order limit)).1 = .ok () ↔
      0 < order.price ∧ order.price * order.quantity ≤ limit := by
  obtain ⟨-, hquantity, -⟩ := order_facts hvalid
  have hincreases := increasesCurrentExposure_fittingCache hvalid
  have hinst : (fittingCache order).instrument order.instrumentID =
      some (fittingInstrument order) := by
    unfold fittingCache Cache.instrument
    rw [Cache.instruments_storePosition]
    exact OrdMap.get_put_self ..
  have hclient : (fittingCache order).orderByClientID order.accountID order.clientOrderID =
      none := rfl
  have hestimate : estimatedPrice (fittingCache order) order =
      if 0 < order.price then order.price else 0 := rfl
  have hticks : checkTicks (fittingInstrument order) order = .ok () := by
    have htrigger := isMultipleOf_commonTick_left order.triggerPrice order.activationPrice
    have hactivation : isMultipleOf order.activationPrice
        (commonTick order.triggerPrice order.activationPrice) = true := by
      rw [commonTick_comm]
      exact isMultipleOf_commonTick_left ..
    simp [checkTicks, Instrument.validateSize, Instrument.validatePrice, fittingInstrument,
      requiresLimitPrice, htype, hquantity, isMultipleOf_self hquantity, htrigger, hactivation]
  have hlimits : checkLimits (limitedTo order limit) v order
      (estimatedPrice (fittingCache order) order) = .ok () ↔
        0 < order.price ∧ order.price * order.quantity ≤ limit := by
    have hresolved : resolveLimits order (limitedTo order limit).cfg =
        { maxOrderNotional := limit } := by
      simp [resolveLimits, limitedTo]
    rw [hestimate]
    simp only [checkLimits, hresolved, checkLimit, except_seq_eq_ok, checkIf_eq_ok, reject_eq_ok,
      hlimit, forall_const, not_lt, lt_irrefl, false_implies, and_true]
    split <;> simp_all
  have hmargin : checkAvailableInitialMargin (fittingCache order) v order
      (fittingInstrument order) (estimatedPrice (fittingCache order) order) = .ok () := rfl
  have hrate : checkCommandRate now (limitedTo order limit) = (.ok (), limitedTo order limit) := rfl
  rw [run_check, hvalid, hrate]
  change checkOrder (limitedTo order limit) v order true false = .ok () ↔ _
  have hinst' : (limitedTo order limit).cache.instrument order.instrumentID =
      some (fittingInstrument order) := hinst
  have hstate : checkTradingState (limitedTo order limit) order = .ok () := rfl
  have hinstrument : checkInstrument (limitedTo order limit) v order (fittingInstrument order) =
      .ok () ↔ 0 < order.price ∧ order.price * order.quantity ≤ limit := by
    simp only [checkInstrument, except_seq_eq_ok, reject_eq_ok, hstate, hticks]
    change _ ∧ True ∧ True ∧ checkLimits (limitedTo order limit) v order
      (estimatedPrice (fittingCache order) order) = .ok () ∧
      checkAvailableInitialMargin (fittingCache order) v order (fittingInstrument order)
        (estimatedPrice (fittingCache order) order) = .ok () ∧
      ¬ (order.reduceOnly = true ∧ increasesCurrentExposure (fittingCache order) order = true) ↔ _
    rw [hlimits, hmargin, hincreases]
    simp [fittingInstrument]
  rw [checkOrder]
  simp only [except_seq_eq_ok, reject_eq_ok, hinst', hinstrument]
  have hclient' : (limitedTo order limit).cache.orderByClientID order.accountID
      order.clientOrderID = none := hclient
  have hopen : (limitedTo order limit).cfg.maxOpenOrders = 0 := rfl
  rw [hclient', hopen]
  simp

end Valid

/-! ### The prices that no check tells apart -/

/-- No cache and no configuration tells the order from the same order at another
price exactly if the prices are the same, or neither of them is positive. -/
theorem price_ignored_iff (hvalid : order.validate = .ok ()) (htype : IgnoresPrice order.type) :
    (∀ e : Engine, e.cache.Reachable → ∀ v : Visits, v.Of e.cache → ∀ now,
        ((check v now (atPrice order price)).run e).1 = ((check v now order).run e).1) ↔
      order.price = price ∨ ¬ 0 < order.price ∧ ¬ 0 < price := by
  have hstyle := htype.not_limitStyle
  constructor
  · intro h
    -- a limit at the value of either order accepts that order
    have hsame (limit : Decimal) (hlimit : 0 < limit) :
        (0 < price ∧ price * order.quantity ≤ limit) ↔
          (0 < order.price ∧ order.price * order.quantity ≤ limit) := by
      have hother : (atPrice order price).validate = .ok () :=
        (validate_atPrice hstyle price).trans hvalid
      have hall (inst : Instrument) := List.Perm.refl (limitedTo order limit).cache.instrumentList
      have hchecks := h (limitedTo order limit) (reachable_fittingCache hvalid)
        ⟨_, fun _ => _, _, _⟩ ⟨.refl _, hall, .refl _, .refl _⟩ 0
      rw [← check_limitedTo hvalid hstyle hlimit, ← hchecks]
      exact (check_limitedTo hother hstyle hlimit _ 0).symm
    obtain ⟨-, hquantity, -⟩ := order_facts hvalid
    by_cases hold : 0 < order.price
    · obtain ⟨hnew, hle⟩ := (hsame _ (mul_pos hold hquantity)).mpr ⟨hold, le_refl _⟩
      have hle' := ((hsame _ (mul_pos hnew hquantity)).mp ⟨hnew, le_refl _⟩).2
      exact .inl (mul_right_cancel₀ hquantity.ne' (le_antisymm hle' hle))
    · refine .inr ⟨hold, fun hnew => hold ?_⟩
      exact ((hsame _ (mul_pos hnew hquantity)).mp ⟨hnew, le_refl _⟩).1
  · intro h e _ v _ now
    rw [check_atPrice hstyle (estimatedPrice_atPrice e.cache h)]

end Price

/-! ### A market order with a price -/

def pricedMarket : SubmitOrder :=
  { accountID := "acct", instrumentID := ⟨"BTC-USDT-PERP", "BINANCE"⟩, side := .buy
    type := .market, quantity := 2 }

theorem price_ignored_iff_market :
    (∀ e : Engine, e.cache.Reachable → ∀ v : Visits, v.Of e.cache → ∀ now,
        ((@check exactDecimals v now (atPrice pricedMarket 1)).run e).1 =
          ((@check exactDecimals v now pricedMarket).run e).1) ↔
      pricedMarket.price = 1 ∨ ¬ 0 < pricedMarket.price ∧ ¬ (0 : Decimal) < 1 :=
  @price_ignored_iff exactDecimals _ _ (by decide +kernel) (.inl rfl)

/-- The last price is 100. -/
def pricedCache : Cache :=
  (fittingCache pricedMarket).putTrade
    { instrumentID := pricedMarket.instrumentID, price := 100, size := 1
      aggressorSide := .buyer, tradeID := "1" }

/-- Orders of no more than 50. -/
def pricedEngine : Engine := { cache := pricedCache, cfg := { maxOrderNotional := 50 } }

def pricedVisits : Visits :=
  ⟨pricedCache.instrumentList, fun _ => pricedCache.instrumentList, pricedCache.instrumentList,
    pricedCache.instrumentList⟩

/-- A market order of 2 at 100 is worth 200 and is refused, and it is accepted when
its price field says 1. -/
theorem price_field_decides :
    ((@check exactDecimals pricedVisits 0 pricedMarket).run pricedEngine).1.isOk = false ∧
      ((@check exactDecimals pricedVisits 0 (atPrice pricedMarket 1)).run
        pricedEngine).1.isOk = true := by
  decide +kernel

end Exchanges.Risk
