import Exchanges.Backtest.Liquidity
import Exchanges.Backtest.Prices

/-!
The times of fills and of callbacks.

A fill has the time of the market data it was made from. Market data of any age
is remembered and matched with, so that a fill can be older than the order that
it fills. What decides is when the data arrived.

The clock is set to the time of a timer that is due, of an order that expires
and of an event. Timers are served before orders expire, and orders expire in
the order in which the cache lists them, so that the clock may go back, and a
timer may find an order open whose time is up.
-/

namespace Exchanges.Backtest

open Exchanges.Lib Exchanges.Model Exchanges.Cache Exchanges.Account

set_option linter.unusedSectionVars false

/-! ### The data that a fill is made from -/

/-- The time of the data that a market event has for an instrument. -/
def stampOf (event : MarketEvent) (id : InstrumentID) : FillSource → Option Time
  | .ticker => (event.ticker.filter fun t => t.instrumentID = id).map (·.timestamp)
  | .orderBook => (event.orderBook.filter fun b => b.instrumentID = id).map (·.timestamp)
  | .quoteTick => (event.quote.filter fun q => q.instrumentID = id).map (·.timestamp)
  | .tradeTick => (event.trade.filter fun t => t.instrumentID = id).map (·.timestamp)
  | .bar => (event.bar.filter fun b => b.barType.canonical.instrumentID = id).map (·.timestamp)

/-- The time of the data that is remembered for an instrument. -/
def Market.stamp (m : Market) (id : InstrumentID) : FillSource → Option Time
  | .ticker => (m.lastTicker.get id).map (·.timestamp)
  | .orderBook => (m.lastBooks.get id).map (·.timestamp)
  | .quoteTick => (m.lastQuotes.get id).map (·.timestamp)
  | .tradeTick => (m.lastTrades.get id).map (·.timestamp)
  | .bar => (m.lastBars.get id).map (·.timestamp)

/-- All market data has the time of its event. -/
def Stamped (events : List Event) : Prop :=
  ∀ e ∈ events, ∀ event, e.message = .market event →
    ∀ id source t, stampOf event id source = some t → t = e.time

/-- When an entry brought data for an instrument. -/
def Entry.brings (id : InstrumentID) (source : FillSource) : Entry → Option Time
  | .market t event => (stampOf event id source).map fun _ => t
  | _ => none

/-- When data for an instrument was last brought. -/
def lastBrought (id : InstrumentID) (source : FillSource) (trace : List Entry) : Option Time :=
  trace.foldl (fun last e => (e.brings id source).or last) none

/-- The times that a fill should not be before: the acceptance of its order, and
with a latency the time from which on the order may be matched. -/
def floors (trace : List Entry) (fill : FillReport) : List Time :=
  trace.flatMap fun
    | .accepted t report eligible =>
      if report.accountID = fill.accountID ∧ report.orderID = fill.orderID then
        t :: eligible.toList
      else []
    | _ => []

theorem lastBrought_concat (id : InstrumentID) (source : FillSource) (trace : List Entry)
    (e : Entry) :
    lastBrought id source (trace ++ [e]) = (e.brings id source).or (lastBrought id source trace) := by
  simp [lastBrought]

/-- A fill has the time at which its data was brought. -/
def TimedByData (past : List Entry) : Entry → Prop
  | .filled _ _ _ m =>
    lastBrought m.order.instrumentID m.source past = some m.fill.timestamp
  | _ => True

/-- What is remembered has the times of the trace, and so have the fills. -/
structure Dated (market : Market) (trace : List Entry) : Prop where
  stamps : ∀ id source, market.stamp id source = lastBrought id source trace
  fills : Along TimedByData trace

theorem Dated.concat {market market' : Market} {trace : List Entry} {e : Entry}
    (h : Dated market trace)
    (hstamps : ∀ id source,
      market'.stamp id source = (e.brings id source).or (market.stamp id source))
    (hfill : TimedByData trace e) : Dated market' (trace ++ [e]) where
  stamps id source := by rw [hstamps, h.stamps, lastBrought_concat]
  fills := along_concat.mpr ⟨h.fills, hfill⟩

section Fills

variable [DecimalPackage] {cfg : Config} {V : OrderStatusReport → Prop} {r : Runtime}
  {m : Matched}

theorem stamp_withMarket (r : Runtime) (event : MarketEvent) (id : InstrumentID)
    (source : FillSource) : (r.withMarket event).market.stamp id source =
      (stampOf event id source).or (r.market.stamp id source) := by
  rw [market_withMarket]
  cases source with
  | bar =>
    rw [Market.stamp, Market.stamp, stampOf, OrdMap.get_elim_put r.market.lastBars event.bar
      fun b => b.barType.canonical.instrumentID, Option.map_or]
  | _ => simp only [Market.stamp, stampOf, OrdMap.get_elim_put, Option.map_or]

/-- A fill has the time of the remembered data. -/
theorem Fits.stamp (h : Fits cfg V r m) :
    r.market.stamp m.order.instrumentID m.source = some m.fill.timestamp := by
  have horigin := h.origin
  generalize m.source = source, m.price = price, m.fill.timestamp = ts at horigin ⊢
  cases horigin with
  | ticker data isMarket => simp [Market.stamp, data]
  | quoteTick data can => simp [Market.stamp, data]
  | tradeTick data can => simp [Market.stamp, data]
  | bar data within => simp [Market.stamp, data]
  | orderBook data can => simp [Market.stamp, data]

theorem stable_dated {setup : Setup} (hstamped : Stamped setup.events) :
    Stable (fun r => Dated r.market r.trace) (AnyMove setup) := by
  refine stable_trace setup (fun {market trace e} hidle h => ?_) (fun {r m} fits h => ?_)
    fun {r event} now h => ?_
  · cases e with
    | market => exact hidle.elim
    | filled => exact hidle.elim
    | _ => exact h.concat (fun _ _ => rfl) trivial
  · refine h.concat (fun _ _ => rfl) ?_
    change lastBrought _ _ _ = _
    rw [← h.stamps]
    exact fits.stamp
  · refine h.concat (fun id source => ?_) trivial
    obtain ⟨e, hmem, htime, hmessage⟩ := now
    rw [stamp_withMarket, Entry.brings]
    cases hstamp : stampOf event id source with
    | none => rfl
    | some t =>
      rw [hstamped e hmem event hmessage id source t hstamp, htime]
      rfl

/-- A fill is at or after the times that it should not be before if and only if
the data that it is made from arrived at or after them. -/
theorem fills_not_before_acceptance_iff (setup : Setup) (c : Cache) (p : Portfolio)
    (hstamped : Stamped setup.events) (past : List Entry) (t : Time) (before : Cache)
    (market : Market) (m : Matched)
    (hfill : past ++ [.filled t before market m] <+: (setup.result c p).trace) :
    (∀ floor ∈ floors (setup.result c p).trace m.fill, floor ≤ m.fill.timestamp) ↔
      ∀ floor ∈ floors (setup.result c p).trace m.fill,
        ∀ brought ∈ lastBrought m.order.instrumentID m.source past, floor ≤ brought := by
  have hinit : Dated (initial c p).market (initial c p).trace :=
    ⟨fun id source => by cases source <;> rfl, along_nil⟩
  have htimed := (of_result (stable_dated hstamped) hinit).fills past _ hfill
  have hbrought : lastBrought m.order.instrumentID m.source past = some m.fill.timestamp := htimed
  rw [hbrought]
  simp

end Fills

/-! ### An order that is filled from an old quote -/

def otherPerp : InstrumentID := ⟨"ETH-USDT-PERP", "BINANCE"⟩

/-- A strategy that buys when it sees a ticker. -/
def buyOnTicker : Strategy := .answering "buyer"
  (fun event => if event.ticker.isSome then [.submitOrder sampleBuy] else []) fun _ => []

/-- A quote, and then a ticker of an instrument. -/
def quoteThenTicker (id : InstrumentID) (quoted : Time) : Setup :=
  { strategies := [buyOnTicker], depth := 2, timers := 1
    events := [sampleQuote quoted 100 1, ⟨2, .marketData,
      .market { ticker := some { instrumentID := id, last := 100, timestamp := 2 } }⟩] }

theorem stamped_quoteThenTicker (id : InstrumentID) (quoted : Time) :
    Stamped (quoteThenTicker id quoted).events := by
  intro e he event hmessage id' source t hstamp
  simp only [quoteThenTicker, sampleQuote, List.mem_cons, List.not_mem_nil, or_false] at he
  rcases he with rfl | rfl <;> cases hmessage <;> cases source <;>
    simp [stampOf, Option.filter_some] at hstamp
  · exact hstamp.2.symm
  · exact hstamp.2.symm

def Entry.isFilled : Entry → Bool
  | .filled .. => true
  | _ => false

theorem exists_filled {trace : List Entry} (h : trace.any Entry.isFilled = true) :
    ∃ past t before market m, past ++ [.filled t before market m] <+: trace := by
  obtain ⟨e, hmem, hfilled⟩ := List.any_eq_true.mp h
  obtain ⟨past, rest, rfl⟩ := List.append_of_mem hmem
  cases e with
  | filled t before market m => exact ⟨past, t, before, market, m, rest, by simp⟩
  | _ => cases hfilled

/-- The entry tells of a fill that is older than the acceptance of its order. -/
def Entry.looksBack (trace : List Entry) : Entry → Bool
  | .filled _ _ _ m => (floors trace m.fill).any fun floor => decide (m.fill.timestamp < floor)
  | _ => false

theorem fills_not_before_acceptance_iff_quoted :
    ∃ past t before market m, past ++ [.filled t before market m] <+:
        (@Setup.result exactDecimals (quoteThenTicker otherPerp 2) Cache.new
          (Portfolio.new Cache.new)).trace ∧
      ((∀ floor ∈ floors (@Setup.result exactDecimals (quoteThenTicker otherPerp 2) Cache.new
          (Portfolio.new Cache.new)).trace m.fill, floor ≤ m.fill.timestamp) ↔
        ∀ floor ∈ floors (@Setup.result exactDecimals (quoteThenTicker otherPerp 2) Cache.new
            (Portfolio.new Cache.new)).trace m.fill,
          ∀ brought ∈ lastBrought m.order.instrumentID m.source past, floor ≤ brought) := by
  have hany : (@Setup.result exactDecimals (quoteThenTicker otherPerp 2) Cache.new
      (Portfolio.new Cache.new)).trace.any Entry.isFilled = true := by decide +kernel
  obtain ⟨past, t, before, market, m, hfill⟩ := exists_filled hany
  exact ⟨past, t, before, market, m, hfill, @fills_not_before_acceptance_iff exactDecimals
    (quoteThenTicker otherPerp 2) Cache.new (Portfolio.new Cache.new)
    (stamped_quoteThenTicker _ _) past t before market m hfill⟩

/-- An order that is accepted at time 2 is filled from the quote of time 1. -/
theorem fills_not_before_acceptance_fails_old_quote :
    Stamped (quoteThenTicker otherPerp 1).events ∧
      (@Setup.result exactDecimals (quoteThenTicker otherPerp 1) Cache.new
        (Portfolio.new Cache.new)).trace.any (Entry.looksBack
          (@Setup.result exactDecimals (quoteThenTicker otherPerp 1) Cache.new
            (Portfolio.new Cache.new)).trace) = true :=
  ⟨stamped_quoteThenTicker _ _, by decide +kernel⟩

/-! ### The clock -/

/-- The order is good till a date that is past. -/
def Lapsed (t : Time) (o : OrderStatusReport) : Prop :=
  o.timeInForce = .gtd ∧ o.expireTime ≠ 0 ∧ o.expireTime < t

instance (t : Time) (o : OrderStatusReport) : Decidable (Lapsed t o) := by
  unfold Lapsed; infer_instance

/-- No open order of the cache is good till a date that is past. -/
def NoneLapsed (t : Time) (c : Cache) : Prop :=
  ∀ entry ∈ c.orders.entries, entry.2.status.isOpen = true → ¬ Lapsed t entry.2

instance (t : Time) (c : Cache) : Decidable (NoneLapsed t c) := by
  unfold NoneLapsed; infer_instance

/-- The times at which strategies were called. -/
def callbackTimes (trace : List Entry) : List Time :=
  trace.filterMap fun
    | .callback t _ => some t
    | _ => none

/-- The strategies are called in the order of time, and never see an open order
whose date is past. -/
def Punctual (trace : List Entry) : Prop :=
  (callbackTimes trace).Pairwise (· ≤ ·) ∧
    ∀ t c, .callback t c ∈ trace → NoneLapsed t c

/-- A step that keeps the order of time. The clock does not go back for a timer
or an order that expires, and whatever it is set for, no order is left open that
is good till an earlier date. No report and no fill concerns an order whose date
is past, but for the reports that close it for good. -/
def Timely : Entry → Prop
  | .clock tick previous next c =>
    (tick = .timer ∨ tick = .expiry → previous ≤ next) ∧ NoneLapsed next c
  | .reported t before report _ => Lapsed t report →
      report.status.isTerminal = true ∧ replayedFills before report = []
  | .filled t before _ m => ∀ o ∈ before.order m.fill.accountID m.fill.orderID, ¬ Lapsed t o
  | _ => True

instance : DecidablePred Timely
  | .clock .. => inferInstanceAs (Decidable (_ ∧ _))
  | .reported .. => inferInstanceAs (Decidable (_ → _))
  | .filled .. => inferInstanceAs (Decidable (∀ o ∈ _, ¬ Lapsed _ o))
  | .market .. | .callback .. | .commanded _ | .listed _ | .accepted .. | .tested ..
  | .positioned .. => isTrue trivial

section Clock

variable [DecimalPackage] {c c' : Cache} {o o' : OrderStatusReport} {t : Time} {r r' : Runtime}

theorem noneLapsed_iff : NoneLapsed t c ↔
    ∀ key o, c.orders.get key = some o → o.status.isOpen = true → ¬ Lapsed t o := by
  constructor
  · intro h key o ho
    exact h (key, o) (OrdMap.mem_entries.mpr ho)
  · rintro h ⟨key, o⟩ hmem
    exact h key o (OrdMap.mem_entries.mp hmem)

theorem NoneLapsed.congr (h : NoneLapsed t c) (horders : c'.orders = c.orders) :
    NoneLapsed t c' := by
  rw [NoneLapsed, horders]
  exact h

theorem NoneLapsed.storeOrder (h : NoneLapsed t c) (hc : OrdersIndexed c)
    (ho : o.status.isOpen = true → ¬ Lapsed t o)
    (horders : c'.orders = (c.storeOrder o).orders) : NoneLapsed t c' := by
  rw [noneLapsed_iff] at h ⊢
  intro key e he hopen
  rw [horders] at he
  obtain rfl | hold := orders_of_storeOrder hc he
  · exact ho hopen
  · exact h key e hold hopen

theorem SameTerms.lapsed (h : SameTerms o o') : Lapsed t o' ↔ Lapsed t o := by
  rw [Lapsed, Lapsed, h.timeInForce, h.expireTime]

/-- A report whose date is past is stored as a closed order, if it closes the
order and there are no fills to replay. -/
theorem StoredAs.not_open {report : OrderStatusReport} (h : StoredAs c report o)
    (hterminal : report.status.isTerminal = true) (hfills : replayedFills c report = []) :
    o.status.isOpen = false := by
  cases h with
  | @accepted s accepted =>
    rw [outcome, hfills, fillAll_nil, normalizeOrder_status]
    have hs : s = report.status := by
      cases hcached : c.order report.accountID report.orderID with
      | none =>
        rw [hcached] at accepted
        exact accepted
      | some e =>
        rw [hcached] at accepted
        obtain heq | ⟨hsubmitted, -⟩ := nextOrderStatus_eq accepted.1
        · exact heq
        · rw [hsubmitted] at hterminal
          cases hterminal
    simp [OrderStatus.isOpen, hs, hterminal]
  | managed follows => simp [OrderStatus.isOpen, hterminal]

/-- What is known at every moment of a run whose steps keep the order of time. -/
structure OnTime (r : Runtime) : Prop where
  noneLapsed : NoneLapsed r.currentTime r.cache
  past : ∀ t ∈ callbackTimes r.trace, t ≤ r.currentTime
  punctual : Punctual r.trace

variable {cfg : Config} {V : OrderStatusReport → Prop} {G : Runtime → Matched → Prop}

theorem Step.noneLapsed (h : Step cfg V G r r') (hr : Sound r.cache)
    (htimely : ∀ e ∈ r'.trace, Timely e) (hnone : NoneLapsed r.currentTime r.cache) :
    NoneLapsed r.currentTime r'.cache := by
  have hindexed := hr.reachable.consistent.orders
  cases h with
  | plain step =>
    obtain ⟨hsame, -⟩ | @⟨report, o, -, -, htrace, hstored, horders⟩ := step.orders hr
    · exact hnone.congr hsame
    · refine hnone.storeOrder hindexed (fun hopen hlapsed => ?_) horders
      rw [hstored.terms.lapsed] at hlapsed
      obtain ⟨hterminal, hfills⟩ := htimely (.reported r.currentTime r.cache report (.ok ()))
        (by simp [htrace]) hlapsed
      rw [hstored.not_open hterminal hfills] at hopen
      cases hopen
  | @filled m drawn fits guard =>
    obtain hsame | ⟨o, -, ho, hmem, horders⟩ := orders_booked hr m drawn
    · exact hnone.congr hsame
    · refine hnone.storeOrder hindexed (fun _ hlapsed => ?_) horders
      rw [(sameTerms_applyFillToOrder o m.fill).lapsed] at hlapsed
      exact htimely _ hmem o ho hlapsed

/-- A move adds calls at the present time only. -/
theorem callbackTimes_extends {matched : Option Matched} (h : Extends cfg matched r r') :
    ∃ times, callbackTimes r'.trace = callbackTimes r.trace ++ times ∧
      ∀ t ∈ times, t = r.currentTime := by
  obtain ⟨entries, heq, hlogs⟩ := h
  refine ⟨callbackTimes entries, by simp [heq, callbackTimes], fun t ht => ?_⟩
  obtain ⟨e, he, hsome⟩ := List.mem_filterMap.mp ht
  have hlog := hlogs e he
  cases hlog with
  | callback => exact (Option.some.inj hsome).symm
  | _ => cases hsome

/-- The calls of a move are punctual if those before it were, and no date is
past when the move is made. -/
theorem OnTime.extends (h : OnTime r) {matched : Option Matched}
    (hextends : Extends cfg matched r r') :
    Punctual r'.trace ∧ ∀ t ∈ callbackTimes r'.trace, t ≤ r.currentTime := by
  obtain ⟨times, heq, hnow⟩ := callbackTimes_extends hextends
  refine ⟨⟨?_, fun t c hmem => ?_⟩, ?_⟩
  · rw [heq, List.pairwise_append]
    refine ⟨h.punctual.1, ?_, fun t ht t' ht' => (hnow t' ht') ▸ h.past t ht⟩
    refine List.pairwise_iff_getElem.mpr fun i j hi hj _ => ?_
    rw [hnow _ (List.getElem_mem hi), hnow _ (List.getElem_mem hj)]
  · rcases hextends.mem hmem with hold | hnew
    · exact h.punctual.2 t c hold
    · cases hnew
      exact h.noneLapsed
  · rw [heq]
    intro t ht
    rcases List.mem_append.mp ht with hold | hnew
    · exact h.past t hold
    · exact (hnow t hnew).le

end Clock

/-! ### A timer and an order that expires -/

end Exchanges.Backtest
