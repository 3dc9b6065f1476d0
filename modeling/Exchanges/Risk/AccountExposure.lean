import Exchanges.Risk.Limits
import Exchanges.Risk.Rates

/-!
What the limit on the exposure of an account covers.

The exposure adds up what the account would hold in each cached instrument. An
instrument that nothing gives a price for is skipped as if it were not held, an
instrument that is not cached is not visited, and without a currency for the
account the values are added up as they are. `exposure_valued_iff` says that the
limit covers everything that is held exactly if none of these three is the case.
-/

namespace Exchanges.Risk

open Exchanges.Lib Exchanges.Model

/-- The position in an instrument when the open orders and the order are filled. -/
def projectedIn (c : Cache) (order : SubmitOrder) (id : InstrumentID) : Decimal :=
  let signed := signedPositionWithOpenOrders c order.accountID id
  if id = order.instrumentID then applySignedOrder signed order.side order.quantity else signed

/-- The price at which the position is valued. -/
def valuationPrice (c : Cache) (order : SubmitOrder) (id : InstrumentID) : Decimal :=
  if id ≠ order.instrumentID then
    exposurePrice c order.accountID id (projectedIn c order id)
  else estimatedPrice c order

section

variable [DecimalPackage]

/-- The value of the position in the currency of the account. -/
def converted (c : Cache) (cfg : Config) (v : Visits) (order : SubmitOrder) (inst : Instrument) :
    Option Decimal :=
  convertAmount c (v.rates inst) (|projectedIn c order inst.id| * valuationPrice c order inst.id)
    (marginCurrency inst) (accountExposureCurrency c cfg order.accountID)

/-- Everything that is held was valued at a positive price and converted, and
together it is within the limit. -/
structure Valued (c : Cache) (cfg : Config) (v : Visits) (order : SubmitOrder) (limit : Decimal)
    (value : Instrument → Decimal) : Prop where
  known : ∀ id, projectedIn c order id ≠ 0 → ∃ inst ∈ c.instrumentList, inst.id = id
  priced : ∀ inst ∈ c.instrumentList, projectedIn c order inst.id ≠ 0 →
    0 < valuationPrice c order inst.id
  convertible : ∀ inst ∈ c.instrumentList, projectedIn c order inst.id ≠ 0 →
    converted c cfg v order inst = some (value inst)
  within : (((c.instrumentList.filter fun inst => projectedIn c order inst.id ≠ 0).map
    value).sum : Decimal) ≤ limit

/-- What is held can be valued: the account has a currency, the instrument is
cached, and there is a price for it. -/
def CanBeValued (c : Cache) (cfg : Config) (order : SubmitOrder) : Prop :=
  ∀ id, projectedIn c order id ≠ 0 →
    accountExposureCurrency c cfg order.accountID ≠ "" ∧
    (∃ inst ∈ c.instrumentList, inst.id = id) ∧
    (id = order.instrumentID ∨ 0 < exposurePrice c order.accountID id (projectedIn c order id))

variable {e : Engine} {v : Visits} {order : SubmitOrder}

/-- What is not held and what has no price adds nothing. -/
theorem exposureOf_eq (c : Cache) (rates : List Instrument) (order : SubmitOrder)
    (target : Currency) (inst : Instrument) :
    exposureOf c rates order (estimatedPrice c order) target inst =
      if projectedIn c order inst.id = 0 then some 0
      else if ¬ 0 < valuationPrice c order inst.id then some 0
      else if target = "" then
        some (|projectedIn c order inst.id| * valuationPrice c order inst.id)
      else convertAmount c rates (|projectedIn c order inst.id| * valuationPrice c order inst.id)
        (marginCurrency inst) target := rfl

/-- An order that is accepted under a limit has a price, and the exposure that was
added up is within the limit. -/
theorem exposure_within {limits : Limits} {duplicate existing : Bool}
    (hok : checkOrder e v order duplicate existing = .ok ())
    (happlies : Applies order e.cfg limits) (hpos : 0 < limits.maxAccountExposure) :
    0 < estimatedPrice e.cache order ∧ ∃ total,
      projectedAccountExposure e.cache e.cfg v order (estimatedPrice e.cache order) = some total ∧
        total ≤ limits.maxAccountExposure := by
  simp only [checkOrder, except_seq_eq_ok] at hok
  obtain ⟨-, -, hok⟩ := hok
  split at hok
  · cases hok
  · simp only [checkInstrument, checkLimits, checkLimit, except_seq_eq_ok, checkIf_eq_ok,
      reject_eq_ok, not_not] at hok
    obtain ⟨-, -, -, ⟨-, -, hexposure⟩, -, -⟩ := hok
    obtain ⟨hresolved, hle⟩ := exposureKind.resolved_le happlies hpos
    obtain ⟨hprice, hamount⟩ := hexposure hresolved
    refine ⟨hprice, ?_⟩
    split at hamount
    · cases hamount
    · next total htotal =>
        rw [reject_eq_ok, not_lt] at hamount
        exact ⟨total, htotal, hamount.trans hle⟩

/-- The limit covers what is held exactly if all of it can be valued. -/
theorem exposure_valued_iff {now : Time} {limits : Limits} (hv : v.Of e.cache)
    (hok : ((check v now order).run e).1 = .ok ()) (happlies : Applies order e.cfg limits)
    (hpos : 0 < limits.maxAccountExposure) :
    (∃ value, Valued e.cache e.cfg v order limits.maxAccountExposure value) ↔
      CanBeValued e.cache e.cfg order := by
  have hrun : (check v now order).run e = (.ok (), ((check v now order).run e).2) :=
    Prod.ext hok rfl
  obtain ⟨-, horder, -⟩ := check_ok hrun
  obtain ⟨hprice, total, htotal, hle⟩ := exposure_within horder happlies hpos
  constructor
  · rintro ⟨value, hvalued⟩ id hheld
    obtain ⟨inst, hinst, rfl⟩ := hvalued.known id hheld
    refine ⟨?_, ⟨inst, hinst, rfl⟩, ?_⟩
    · intro htarget
      have hconverted := hvalued.convertible inst hinst hheld
      rw [converted, convertAmount, if_pos (.inr htarget)] at hconverted
      cases hconverted
    · have hvaluation := hvalued.priced inst hinst hheld
      by_cases hid : inst.id = order.instrumentID
      · exact .inl hid
      · rw [valuationPrice, if_pos hid] at hvaluation
        exact .inr hvaluation
  · intro hcan
    have hpriced : ∀ inst ∈ e.cache.instrumentList, projectedIn e.cache order inst.id ≠ 0 →
        0 < valuationPrice e.cache order inst.id := by
      intro inst _ hheld
      unfold valuationPrice
      split
      · next hid => exact (hcan _ hheld).2.2.resolve_left hid
      · exact hprice
    -- where something is held, the loop adds its converted value
    have hadded : ∀ inst ∈ e.cache.instrumentList,
        exposureOf e.cache (v.rates inst) order (estimatedPrice e.cache order)
            (accountExposureCurrency e.cache e.cfg order.accountID) inst =
          if projectedIn e.cache order inst.id ≠ 0 then converted e.cache e.cfg v order inst
          else some 0 := by
      intro inst hinst
      rw [exposureOf_eq]
      by_cases hheld : projectedIn e.cache order inst.id = 0
      · rw [if_pos hheld, if_neg (not_not.mpr hheld)]
      · rw [if_neg hheld, if_neg (not_not.mpr (hpriced inst hinst hheld)),
          if_neg (hcan _ hheld).1, if_pos hheld]
        rfl
    obtain ⟨hall, hsum⟩ := foldlM_add_eq_some htotal
    refine ⟨fun inst => (converted e.cache e.cfg v order inst).getD 0,
      fun id hheld => (hcan id hheld).2.1, hpriced, ?_, ?_⟩
    · intro inst hinst hheld
      obtain ⟨amount, hamount⟩ := hall inst (hv.exposure.mem_iff.mpr hinst)
      rw [hadded inst hinst, if_pos hheld] at hamount
      rw [hamount, Option.getD_some]
    · rw [zero_add, (hv.exposure.map _).sum_eq] at hsum
      rw [sum_map_eq_sum_filter (p := fun inst => projectedIn e.cache order inst.id ≠ 0)
        (g := fun inst => (converted e.cache e.cfg v order inst).getD 0)] at hsum
      · exact hsum ▸ hle
      · intro inst hinst
        rw [hadded inst hinst]
        split <;> rfl

end

/-! ### A holding without a price -/

def heldCoin (symbol : String) : Instrument :=
  { id := ⟨symbol, "VENUE"⟩, rawSymbol := symbol, type := .spot, base := symbol, quote := "USD"
    priceTick := 1, sizeTick := 1, status := .trading }

/-- A thousand of a coin that nobody quotes, and an exposure of at most 100. -/
def unquoted : Engine :=
  let instruments := ((∅ : OrdMap InstrumentID Instrument).put (heldCoin "BTC").id
    (heldCoin "BTC")).put (heldCoin "ETH").id (heldCoin "ETH")
  { cache := ({ Cache.new with instruments := instruments } : Cache).storePosition
      { accountID := "acct", instrumentID := (heldCoin "ETH").id, positionID := "position"
        side := .long, quantity := 1000 }
    cfg := { maxAccountExposure := 100, exposureCurrency := "USD" } }

def unquotedVisits : Visits := inOrder [heldCoin "BTC", heldCoin "ETH"]

def buyCoin : SubmitOrder :=
  { accountID := "acct", instrumentID := (heldCoin "BTC").id, side := .buy, type := .limit
    quantity := 1, price := 50 }

theorem unquotedVisits_of : unquotedVisits.Of unquoted.cache := by
  have hlist : [heldCoin "BTC", heldCoin "ETH"] = unquoted.cache.instrumentList := by
    decide +kernel
  exact ⟨.of_eq hlist, fun _ => .of_eq hlist, .of_eq hlist, .of_eq hlist⟩

theorem unquoted_accepts :
    ((@check exactDecimals unquotedVisits 0 buyCoin).run unquoted).1 = .ok () := by
  decide +kernel

theorem exposure_valued_iff_unquoted :
    (∃ value, @Valued exactDecimals unquoted.cache unquoted.cfg unquotedVisits buyCoin 100 value) ↔
      CanBeValued unquoted.cache unquoted.cfg buyCoin :=
  @exposure_valued_iff exactDecimals _ _ _ _ _ unquotedVisits_of unquoted_accepts .global
    (by decide +kernel)

/-- The order is accepted although a thousand coins were not valued at all. -/
theorem holding_skipped :
    ((@check exactDecimals unquotedVisits 0 buyCoin).run unquoted).1 = .ok () ∧
      projectedIn unquoted.cache buyCoin (heldCoin "ETH").id = 1000 ∧
      valuationPrice unquoted.cache buyCoin (heldCoin "ETH").id = 0 ∧
      ¬ ∃ value, @Valued exactDecimals unquoted.cache unquoted.cfg unquotedVisits buyCoin 100
        value := by
  have hheld : projectedIn unquoted.cache buyCoin (heldCoin "ETH").id = 1000 := by decide +kernel
  have hprice : valuationPrice unquoted.cache buyCoin (heldCoin "ETH").id = 0 := by
    decide +kernel
  refine ⟨unquoted_accepts, hheld, hprice, ?_⟩
  rintro ⟨value, hvalued⟩
  have hpriced := @Valued.priced exactDecimals _ _ _ _ _ _ hvalued (heldCoin "ETH")
    (by decide +kernel) (by rw [hheld]; decide +kernel)
  rw [hprice] at hpriced
  exact lt_irrefl _ hpriced

end Exchanges.Risk
