import Exchanges.Portfolio.Exposure
import Exchanges.Risk.Engine

/-!
Decisions and conversions that depend on the order of the instruments.

Sums over the instruments come out the same in every order. The rate of two
currencies is the one of the first instrument that gives it, so it depends on the
order as soon as two instruments give different ones. `enumeration_irrelevant_iff`
says that this is the only way.
-/

namespace Exchanges.Risk

open Exchanges.Lib Exchanges.Model

set_option linter.unusedSectionVars false

section Rates

variable [DecimalPackage] {c : Cache} {l l' : List Instrument} {v v' : Visits}

/-- No two cached instruments give different rates for the same currencies. -/
def RatesUnique (c : Cache) : Prop :=
  ∀ source target, source ≠ "" → target ≠ "" → source ≠ target → c.RatesAgree source target

/-- Whatever the configuration, every order is decided alike, and whatever rates
were set, every amount is converted alike, in all orders of the instruments. -/
structure EnumerationIrrelevant (c : Cache) : Prop where
  decisions : ∀ e : Engine, e.cache = c → ∀ v v' : Visits, v.Of c → v'.Of c → ∀ now order,
    ((check v now order).run e).1 = ((check v' now order).run e).1
  amounts : ∀ p : Portfolio, p.cache = c → ∀ l l' : List Instrument, l.Perm c.instrumentList →
    l'.Perm c.instrumentList → ∀ amount source target,
      p.convertAmount l amount source target = p.convertAmount l' amount source target

/-! ### Rates -/

theorem convertAmount_perm (hc : RatesUnique c) (hl : l.Perm c.instrumentList)
    (hl' : l'.Perm c.instrumentList) (amount : Decimal) (source target : Currency) :
    convertAmount c l amount source target = convertAmount c l' amount source target := by
  unfold convertAmount
  split
  · rfl
  · next hnamed =>
      split
      · rfl
      · next hne =>
          obtain ⟨hsource, htarget⟩ := not_or.mp hnamed
          rw [exchangeRate, exchangeRate,
            findSome?_perm (hc source target hsource htarget hne) hl hl']

theorem portfolio_convertAmount_perm {p : Portfolio} (hc : RatesUnique p.cache)
    (hl : l.Perm p.cache.instrumentList) (hl' : l'.Perm p.cache.instrumentList) (amount : Decimal)
    (source target : Currency) :
    p.convertAmount l amount source target = p.convertAmount l' amount source target := by
  unfold Portfolio.convertAmount
  split
  · rfl
  · next hnamed =>
      split
      · rfl
      · next hne =>
          obtain ⟨hsource, htarget⟩ := not_or.mp hnamed
          rw [Portfolio.exchangeRate, Portfolio.exchangeRate,
            findSome?_perm (hc source target hsource htarget hne) hl hl']

/-- Without rates that were set, an amount of one is converted at the rate. -/
theorem convertAmount_one {source target : Currency} (hsource : source ≠ "")
    (htarget : target ≠ "") (hne : source ≠ target) (l : List Instrument) :
    (Portfolio.new c).convertAmount l 1 source target =
      l.findSome? (c.instrumentRate source target) := by
  have hset : (Portfolio.new c).explicitRate source target = none := rfl
  rw [Portfolio.convertAmount, if_neg (not_or.mpr ⟨hsource, htarget⟩), if_neg hne,
    Portfolio.exchangeRate, hset]
  change Option.map (1 * ·) (l.findSome? (c.instrumentRate source target)) = _
  simp only [one_mul, Option.map_id']

/-! ### The parts of a check -/

theorem projectedAccountExposure_perm (hc : RatesUnique c) (hv : v.Of c) (hv' : v'.Of c)
    (cfg : Config) (order : SubmitOrder) (price : Decimal) :
    projectedAccountExposure c cfg v order price =
      projectedAccountExposure c cfg v' order price := by
  refine foldlM_add_perm (hv.exposure.trans hv'.exposure.symm) (fun inst => ?_) 0
  unfold exposureOf
  simp only [convertAmount_perm hc (hv.rates inst) (hv'.rates inst)]

theorem availableMargin_perm (h : l.Perm l') (account : AccountSnapshot) (currency : Currency) :
    availableMargin c l account currency = availableMargin c l' account currency := by
  unfold availableMargin
  simp only [(h.map (equityOf c account.accountID currency)).sum_eq]

theorem marginPositions_perm (h : l.Perm l') (a : AccountID) (currency : Currency) :
    marginPositions c l a currency = marginPositions c l' a currency := by
  -- what is entered for an instrument depends on its id only
  refine h.foldl_eq' (fun x _ y _ m => ?_) ∅
  by_cases hid : x.id = y.id
  · rw [hid]
    cases c.positionByInstrument a y.id with
    | none => simp only [ite_self]
    | some q =>
      dsimp only
      split_ifs <;> rfl
  · cases c.positionByInstrument a x.id with
    | none => simp only [ite_self]
    | some q =>
      cases c.positionByInstrument a y.id with
      | none => simp only [ite_self]
      | some r =>
        dsimp only
        split_ifs
        · rfl
        · rfl
        · rfl
        · exact OrdMap.put_comm m hid _ _

theorem checkAvailableInitialMargin_perm (hv : v.Of c) (hv' : v'.Of c) (order : SubmitOrder)
    (inst : Instrument) (price : Decimal) :
    checkAvailableInitialMargin c v order inst price =
      checkAvailableInitialMargin c v' order inst price := by
  unfold checkAvailableInitialMargin openOrderInitialMarginReservation
  simp only [availableMargin_perm (hv.equity.trans hv'.equity.symm),
    marginPositions_perm (hv.reservation.trans hv'.reservation.symm)]

theorem checkOrder_perm {e : Engine} (hc : RatesUnique e.cache) (hv : v.Of e.cache)
    (hv' : v'.Of e.cache) (order : SubmitOrder) (rejectDuplicateClientID existingOrder : Bool) :
    checkOrder e v order rejectDuplicateClientID existingOrder =
      checkOrder e v' order rejectDuplicateClientID existingOrder := by
  unfold checkOrder checkInstrument checkLimits
  simp only [projectedAccountExposure_perm hc hv hv', checkAvailableInitialMargin_perm hv hv']

theorem check_perm {e : Engine} (hc : RatesUnique e.cache) (hv : v.Of e.cache)
    (hv' : v'.Of e.cache) (now : Time) (order : SubmitOrder) :
    (check v now order).run e = (check v' now order).run e := by
  rw [run_check, run_check, checkOrder_perm hc hv hv']

/-- The order of the instruments does not matter exactly if no two of them give
different rates for the same currencies. -/
theorem enumeration_irrelevant_iff (c : Cache) : EnumerationIrrelevant c ↔ RatesUnique c := by
  constructor
  · intro h source target hsource htarget hne
    refine (findSome?_perm_iff (g := id) fun a b heq => Option.some.inj heq).mp
      fun l l' hl hl' => ?_
    have hamounts := h.amounts (Portfolio.new c) rfl l l' hl hl' 1 source target
    rwa [convertAmount_one hsource htarget hne, convertAmount_one hsource htarget hne] at hamounts
  · intro hc
    refine ⟨?_, ?_⟩
    · rintro e rfl v v' hv hv' now order
      rw [check_perm hc hv hv']
    · rintro p rfl l l' hl hl' amount source target
      exact portfolio_convertAmount_perm hc hl hl' amount source target

end Rates

/-! ### Two venues with different prices for the same pair -/

/-- Bitcoin against dollars on a venue. -/
def pairOn (venue : Venue) : Instrument :=
  { id := ⟨"BTC-USD", venue⟩, rawSymbol := "BTCUSD", type := .spot, base := "BTC", quote := "USD"
    priceTick := 1, sizeTick := 1, status := .trading }

def lastTrade (venue : Venue) (price : Decimal) : TradeTick :=
  { instrumentID := (pairOn venue).id, price := price, size := 1, aggressorSide := .buyer
    tradeID := "1" }

/-- One bitcoin costs 100 dollars here and 200 dollars there. -/
def twoVenues : Cache :=
  let instruments := ((∅ : OrdMap InstrumentID Instrument).put (pairOn "HERE").id
    (pairOn "HERE")).put (pairOn "THERE").id (pairOn "THERE")
  (({ Cache.new with instruments := instruments } : Cache).putTrade
    (lastTrade "HERE" 100)).putTrade (lastTrade "THERE" 200)

/-- No more than the worth of one bitcoin. -/
def oneBitcoin : Engine :=
  { cache := twoVenues, cfg := { maxAccountExposure := 1, exposureCurrency := "BTC" } }

def inOrder (l : List Instrument) : Visits := ⟨l, fun _ => l, l, l⟩

/-- Bitcoin for 150 dollars. -/
def buyPair : SubmitOrder :=
  { accountID := "acct", instrumentID := (pairOn "HERE").id, side := .buy, type := .limit
    quantity := 1, price := 150 }

/-- 150 dollars are worth 1.5 bitcoin if the one venue is asked first, and then
the order is refused, and 0.75 if it is the other. -/
theorem enumeration_decides_rate :
    ([pairOn "HERE", pairOn "THERE"].Perm twoVenues.instrumentList ∧
      [pairOn "THERE", pairOn "HERE"].Perm twoVenues.instrumentList) ∧
    (@Portfolio.convertAmount exactDecimals (Portfolio.new twoVenues)
        [pairOn "HERE", pairOn "THERE"] 150 "USD" "BTC" = some (3 / 2) ∧
      @Portfolio.convertAmount exactDecimals (Portfolio.new twoVenues)
        [pairOn "THERE", pairOn "HERE"] 150 "USD" "BTC" = some (3 / 4)) ∧
    ((@check exactDecimals (inOrder [pairOn "HERE", pairOn "THERE"]) 0 buyPair).run
        oneBitcoin).1.isOk = false ∧
      ((@check exactDecimals (inOrder [pairOn "THERE", pairOn "HERE"]) 0 buyPair).run
        oneBitcoin).1.isOk = true := by
  decide +kernel

end Exchanges.Risk
