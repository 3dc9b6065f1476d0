import Exchanges.Lib.Batches
import Exchanges.Model.Commands

/-!
Bars from trades, quotes and tickers.

The aggregator keeps one bar. An event of the bar's bucket extends it; an event
of any other bucket completes it and starts the next one. The bars that come out
are therefore those of the batches of the input, in the sense of
`Exchanges.Lib.Batches`: nothing is lost whatever the order of the events, and
if time does not go back there is one bar for each bucket.
-/

namespace Exchanges.Data

open Exchanges.Lib Exchanges.Model

set_option linter.unusedSectionVars false

/-! ### The aggregator -/

/-- `Time.Truncate`: the last multiple of the step, counted from the zero time. -/
def truncate (t : Time) (step : ℤ) : Time := if step ≤ 0 then t else t - t % step

structure BarAggregator where
  barType : BarType
  current : Option Bar := none

/-- `NewBarAggregator`. -/
def newBarAggregator (barType : BarType) : Except Err BarAggregator := do
  barType.canonical.validate
  return { barType := barType.canonical }

/-- What an event has for the aggregator. -/
structure AggregationInput where
  price : Decimal
  volume : Decimal
  timestamp : Time
  deriving DecidableEq, Repr

section Aggregator

variable [DecimalPackage]

/-- `aggregationInput`. A ticker counts only if its price is positive. -/
def aggregationInput (event : MarketEvent) : Option AggregationInput :=
  (event.trade.map fun trade => ⟨trade.price, trade.size, trade.timestamp⟩).or <|
    ((event.ticker.filter fun ticker => decide (0 < ticker.last)).map fun ticker =>
      ⟨ticker.last, 0, ticker.timestamp⟩).or <|
    event.quote.map fun quote =>
      ⟨DecimalPackage.div (quote.bidPrice + quote.askPrice) 2, 0, quote.timestamp⟩

namespace BarAggregator

omit [DecimalPackage] in
/-- The bar that an event starts. -/
def start (a : BarAggregator) (input : AggregationInput) : Bar where
  barType := a.barType
  «open» := input.price
  high := input.price
  low := input.price
  close := input.price
  volume := input.volume
  timestamp := truncate input.timestamp a.barType.step
  initTime := input.timestamp

omit [DecimalPackage] in
/-- The bar with one more event. -/
def extend (bar : Bar) (input : AggregationInput) : Bar :=
  { bar with
    high := if bar.high < input.price then input.price else bar.high
    low := if input.price < bar.low then input.price else bar.low
    close := input.price
    volume := bar.volume + input.volume }

/-- `Update`: the aggregator afterwards, the bar that is completed, and the error. -/
def update (a : BarAggregator) (event : MarketEvent) :
    BarAggregator × Option Bar × Except Err Unit :=
  match aggregationInput event with
  | none => (a, none, .ok ())
  | some input =>
    if event.instrumentID ≠ a.barType.instrumentID then (a, none, .ok ())
    else match a.current with
      | none => ({ a with current := some (a.start input) }, none, .ok ())
      | some bar =>
        if bar.timestamp ≠ truncate input.timestamp a.barType.step then
          ({ a with current := some (a.start input) }, some bar, bar.validate)
        else ({ a with current := some (extend bar input) }, none, .ok ())

omit [DecimalPackage] in
/-- `Flush`. -/
def flush (a : BarAggregator) : BarAggregator × Option Bar × Except Err Unit :=
  match a.current with
  | none => (a, none, .ok ())
  | some bar => ({ a with current := none }, some bar, bar.validate)

/-- The bars that `Update` returns for some events, and `Flush` after them, each
with the error that comes with it. -/
def returned (a : BarAggregator) : List MarketEvent → List (Bar × Except Err Unit)
  | [] => match a.flush with
      | (_, some bar, err) => [(bar, err)]
      | (_, none, _) => []
  | event :: events => match a.update event with
      | (a, some bar, err) => (bar, err) :: a.returned events
      | (a, none, _) => a.returned events

end BarAggregator

end Aggregator

/-! ### What the bars should be -/

/-- Price, volume and time of an event, with the mid price of a quote taken
exactly. -/
def tickOf (event : MarketEvent) : AggregationInput :=
  match event.trade, event.quote, event.ticker with
  | some trade, _, _ => ⟨trade.price, trade.size, trade.timestamp⟩
  | none, some quote, _ => ⟨(quote.bidPrice + quote.askPrice) / 2, 0, quote.timestamp⟩
  | none, none, some ticker => ⟨ticker.last, 0, ticker.timestamp⟩
  | none, none, none => ⟨0, 0, 0⟩

/-- The bucket of a tick. -/
def bucketOf (barType : BarType) (tick : AggregationInput) : Time :=
  truncate tick.timestamp barType.step

/-- A valid trade, quote or positively priced ticker of the instrument. -/
structure Suits (barType : BarType) (event : MarketEvent) : Prop where
  valid : event.validate = .ok ()
  kind : event.trade.isSome ∨ event.quote.isSome ∨ ∃ ticker, event.ticker = some ticker ∧
    0 < ticker.last
  instrument : event.instrumentID = barType.instrumentID

/-- The bar sums up the ticks of its bucket. -/
structure Summarizes (barType : BarType) (ticks : List AggregationInput) (bar : Bar) : Prop where
  barType_eq : bar.barType = barType
  bucket : ∀ tick ∈ ticks, bucketOf barType tick = bar.timestamp
  «open» : (ticks.map (·.price)).head? = some bar.open
  high : IsGreatest {p | p ∈ ticks.map (·.price)} bar.high
  low : IsLeast {p | p ∈ ticks.map (·.price)} bar.low
  close : (ticks.map (·.price)).getLast? = some bar.close
  volume : bar.volume = (ticks.map (·.volume)).sum

theorem Summarizes.ne_nil {barType : BarType} {ticks : List AggregationInput} {bar : Bar}
    (h : Summarizes barType ticks bar) : ticks ≠ [] := by
  rintro rfl
  cases h.open

section Summaries

variable {a : BarAggregator} {ticks : List AggregationInput} {tick : AggregationInput} {bar : Bar}

theorem summarizes_start (a : BarAggregator) (tick : AggregationInput) :
    Summarizes a.barType [tick] (a.start tick) where
  barType_eq := rfl
  bucket := List.forall_mem_singleton.mpr rfl
  «open» := rfl
  high := ⟨List.mem_singleton_self _, fun _ hp => (List.mem_singleton.mp hp).le⟩
  low := ⟨List.mem_singleton_self _, fun _ hp => (List.mem_singleton.mp hp).ge⟩
  close := rfl
  volume := by simp [BarAggregator.start]

theorem prices_concat (ticks : List AggregationInput) (tick : AggregationInput) :
    {p | p ∈ (ticks ++ [tick]).map (·.price)} =
      insert tick.price {p | p ∈ ticks.map (·.price)} := by
  ext p
  simp [or_comm, eq_comm]

theorem Summarizes.extend (h : Summarizes a.barType ticks bar)
    (hbucket : bar.timestamp = bucketOf a.barType tick) :
    Summarizes a.barType (ticks ++ [tick]) (BarAggregator.extend bar tick) where
  barType_eq := h.barType_eq
  bucket := by
    intro t ht
    rcases List.mem_append.mp ht with ht | ht
    · exact h.bucket t ht
    · rw [List.mem_singleton.mp ht]
      exact hbucket.symm
  «open» := by
    rw [List.map_append, List.head?_append, h.open]
    rfl
  high := by
    have heq : (BarAggregator.extend bar tick).high = max bar.high tick.price := by
      rw [max_def_lt]
      rfl
    rw [heq]
    rw [prices_concat, max_comm]
    exact h.high.insert tick.price
  low := by
    have heq : (BarAggregator.extend bar tick).low = min tick.price bar.low := by
      rw [min_def_lt]
      rfl
    rw [heq]
    rw [prices_concat]
    exact h.low.insert tick.price
  close := by simp [BarAggregator.extend]
  volume := by simp [BarAggregator.extend, h.volume]

/-- A bar of ticks with positive prices is valid. -/
theorem Summarizes.valid {barType : BarType} (h : Summarizes barType ticks bar)
    (hvalid : barType.canonical.validate = .ok ())
    (hticks : ∀ tick ∈ ticks, 0 < tick.price ∧ 0 ≤ tick.volume) : bar.validate = .ok () := by
  have hpos : ∀ p ∈ ticks.map (·.price), 0 < p := by
    intro p hp
    obtain ⟨tick, htick, rfl⟩ := List.mem_map.mp hp
    exact (hticks tick htick).1
  have hopen := List.mem_of_mem_head? h.open
  have hclose := List.mem_of_mem_getLast? h.close
  have hvolume : 0 ≤ bar.volume := by
    rw [h.volume]
    refine List.sum_nonneg fun v hv => ?_
    obtain ⟨tick, htick, rfl⟩ := List.mem_map.mp hv
    exact (hticks tick htick).2
  simp only [Bar.validate, except_seq_eq_ok, reject_eq_ok, not_or, not_not, h.barType_eq, hvalid,
    true_and]
  exact ⟨⟨hpos _ hopen, hpos _ h.high.1, hpos _ h.low.1, hpos _ hclose⟩, hvolume.not_gt,
    ⟨(h.high.2 hopen).not_gt, (h.high.2 h.low.1).not_gt, (h.high.2 hclose).not_gt⟩,
    (h.low.2 hopen).not_gt, (h.low.2 hclose).not_gt⟩

end Summaries

/-! ### Suitable events -/

section Events

variable [DecimalPackage] [ExactDivision] {barType : BarType} {event : MarketEvent}

theorem aggregationInput_eq (h : Suits barType event) :
    aggregationInput event = some (tickOf event) := by
  have hvalid := h.valid
  simp only [MarketEvent.validate, except_seq_eq_ok, MarketEvent.payloadCount] at hvalid
  obtain ⟨-, -, -, -, -, -, -, hcount⟩ := hvalid
  unfold aggregationInput tickOf
  cases htrade : event.trade with
  | some trade => rfl
  | none =>
    cases hquote : event.quote with
    | some quote =>
      -- there is no other payload
      cases hticker : event.ticker with
      | some ticker =>
        simp [hquote, hticker] at hcount
        omega
      | none => simp [ExactDivision.div_eq]
    | none =>
      obtain hsome | hsome | ⟨ticker, hticker, hpos⟩ := h.kind
      · simp [htrade] at hsome
      · simp [hquote] at hsome
      · simp [hticker, hpos]

theorem tickOf_pos (h : Suits barType event) :
    0 < (tickOf event).price ∧ 0 ≤ (tickOf event).volume := by
  have hvalid := h.valid
  simp only [MarketEvent.validate, except_seq_eq_ok] at hvalid
  obtain ⟨-, -, htrades, hquotes, -⟩ := hvalid
  unfold tickOf
  cases htrade : event.trade with
  | some trade =>
    simp only [htrade, ExecutionEvent.checkPayload, TradeTick.validate, except_seq_eq_ok,
      reject_eq_ok, not_or, not_not] at htrades
    exact ⟨htrades.2.1.1, htrades.2.1.2.le⟩
  | none =>
    cases hquote : event.quote with
    | some quote =>
      simp only [hquote, ExecutionEvent.checkPayload, QuoteTick.validate, except_seq_eq_ok,
        reject_eq_ok, not_or, not_not] at hquotes
      obtain ⟨-, ⟨hbid, hask, -⟩, -⟩ := hquotes
      exact ⟨half_pos (add_pos hbid hask), le_rfl⟩
    | none =>
      obtain hsome | hsome | ⟨ticker, hticker, hpos⟩ := h.kind
      · simp [htrade] at hsome
      · simp [hquote] at hsome
      · simpa [hticker] using hpos

end Events

/-- The volumes of the ticks are those of the trades. -/
theorem sum_volume_ticks (events : List MarketEvent) :
    ((events.map tickOf).map (·.volume)).sum =
      ((events.filterMap (·.trade)).map (·.size)).sum := by
  induction events with
  | nil => rfl
  | cons event events ih =>
    rw [List.map_cons, List.map_cons, List.sum_cons, ih]
    unfold tickOf
    cases htrade : event.trade with
    | some trade => simp [htrade]
    | none =>
      rw [List.filterMap_cons_none htrade]
      cases event.quote <;> cases event.ticker <;> simp

/-! ### The bars are those of the batches -/

section Returned

variable [DecimalPackage] [ExactDivision] {a : BarAggregator} {events : List MarketEvent}

theorem returned_of_current {bar : Bar} {ticks : List AggregationInput}
    (hbar : a.current = some bar) (hticks : Summarizes a.barType ticks bar)
    (hevents : ∀ e ∈ events, Suits a.barType e) :
    List.Forall₂ (Summarizes a.barType)
      (batches (bucketOf a.barType) (ticks ++ events.map tickOf))
      ((a.returned events).map (·.1)) := by
  induction events generalizing a bar ticks with
  | nil =>
    rw [List.map_nil, List.append_nil, batches_of_const hticks.ne_nil hticks.bucket]
    simp only [BarAggregator.returned, BarAggregator.flush, hbar]
    exact .cons hticks .nil
  | cons event events ih =>
    obtain ⟨hevent, hevents⟩ := List.forall_mem_cons.mp hevents
    simp only [BarAggregator.returned, BarAggregator.update, aggregationInput_eq hevent,
      hevent.instrument, hbar, ne_eq, not_true_eq_false, if_false, List.map_cons]
    by_cases hsame : bar.timestamp = truncate (tickOf event).timestamp a.barType.step
    · rw [if_neg (not_not.mpr hsame), List.append_cons]
      exact ih (a := { a with current := some (BarAggregator.extend bar (tickOf event)) }) rfl
        (hticks.extend hsame) hevents
    · rw [if_pos hsame, batches_append_cons _ hticks.ne_nil hticks.bucket (Ne.symm hsame)]
      exact .cons hticks (ih (a := { a with current := some (a.start (tickOf event)) }) rfl
        (summarizes_start a (tickOf event)) hevents)

/-- The bars sum up the batches of the ticks. -/
theorem returned_batches (hnone : a.current = none)
    (hevents : ∀ e ∈ events, Suits a.barType e) :
    List.Forall₂ (Summarizes a.barType) (batches (bucketOf a.barType) (events.map tickOf))
      ((a.returned events).map (·.1)) := by
  cases events with
  | nil =>
    simp only [BarAggregator.returned, BarAggregator.flush, hnone]
    exact .nil
  | cons event events =>
    obtain ⟨hevent, hevents⟩ := List.forall_mem_cons.mp hevents
    simp only [BarAggregator.returned, BarAggregator.update, aggregationInput_eq hevent,
      hevent.instrument, hnone, ne_eq, not_true_eq_false, if_false, List.map_cons]
    exact returned_of_current (a := { a with current := some (a.start (tickOf event)) }) rfl
      (summarizes_start a (tickOf event)) hevents

omit [ExactDivision] in
/-- The error that comes with a bar says whether it is valid. -/
theorem err_returned (a : BarAggregator) (events : List MarketEvent) :
    ∀ b ∈ a.returned events, b.2 = b.1.validate := by
  induction events generalizing a with
  | nil =>
    intro b hb
    simp only [BarAggregator.returned, BarAggregator.flush] at hb
    cases hcurrent : a.current with
    | none => simp [hcurrent] at hb
    | some bar =>
      simp only [hcurrent, List.mem_singleton] at hb
      rw [hb]
  | cons event events ih =>
    intro b hb
    unfold BarAggregator.returned BarAggregator.update at hb
    cases hinput : aggregationInput event with
    | none =>
      simp only [hinput] at hb
      exact ih _ b hb
    | some input =>
      cases hcurrent : a.current with
      | none =>
        simp only [hinput, hcurrent] at hb
        split_ifs at hb <;> exact ih _ b hb
      | some bar =>
        simp only [hinput, hcurrent] at hb
        split_ifs at hb
        · exact ih _ b hb
        · rcases List.mem_cons.mp hb with rfl | hb
          · rfl
          · exact ih _ b hb
        · exact ih _ b hb

end Returned

/-! ### Volumes and buckets -/

theorem validate_canonical (barType : BarType) : barType.canonical.validate = barType.validate := by
  rw [BarType.validate, BarType.canonical_canonical, BarType.validate]

theorem truncate_mono {t u : Time} (step : ℤ) (h : t ≤ u) : truncate t step ≤ truncate u step := by
  unfold truncate
  split_ifs with hstep
  · exact h
  · have hmul : ∀ t : ℤ, t - t % step = step * (t / step) := fun t => by
      rw [Int.emod_def]
      ring
    rw [hmul, hmul]
    exact Int.mul_le_mul_of_nonneg_left (Int.ediv_le_ediv (not_le.mp hstep) h) (not_le.mp hstep).le

section Bars

variable [DecimalPackage] [ExactDivision] {barType : BarType} {a : BarAggregator}
  {events : List MarketEvent}

theorem sum_volume_returned (hnone : a.current = none)
    (hevents : ∀ e ∈ events, Suits a.barType e) :
    ((a.returned events).map (·.1.volume)).sum =
      ((events.filterMap (·.trade)).map (·.size)).sum := by
  have hsums : ∀ {gs : List (List AggregationInput)} {bars : List Bar},
      List.Forall₂ (Summarizes a.barType) gs bars →
        (bars.map (·.volume)).sum = (gs.flatten.map (·.volume)).sum := by
    intro gs bars h
    induction h with
    | nil => rfl
    | cons hbar _ ih =>
      rw [List.map_cons, List.sum_cons, ih, hbar.volume, List.flatten_cons, List.map_append,
        List.sum_append]
  have hreturned := hsums (returned_batches hnone hevents)
  rw [List.map_map, flatten_batches, sum_volume_ticks] at hreturned
  exact hreturned

theorem ticks_pos (hevents : ∀ e ∈ events, Suits a.barType e) {g : List AggregationInput}
    (hg : g ∈ batches (bucketOf a.barType) (events.map tickOf)) :
    ∀ tick ∈ g, 0 < tick.price ∧ 0 ≤ tick.volume := by
  intro tick htick
  obtain ⟨event, hevent, rfl⟩ := List.mem_map.mp (mem_of_mem_batches hg htick)
  exact tickOf_pos (hevents event hevent)

/-- No volume is lost, in whatever order the events come. If time does not go
back, the bars come in the order of their buckets, one for each bucket that has
an event, and each is valid and sums up the events of its bucket. -/
theorem bars_of_events (hvalid : barType.validate = .ok ())
    (hevents : ∀ e ∈ events, Suits barType e) :
    ∃ a, newBarAggregator barType = .ok a ∧
      ((a.returned events).map (·.1.volume)).sum =
        ((events.filterMap (·.trade)).map (·.size)).sum ∧
      (events.Pairwise (fun e f => (tickOf e).timestamp ≤ (tickOf f).timestamp) →
        (a.returned events).Pairwise (fun b c => b.1.timestamp < c.1.timestamp) ∧
        (∀ bucket, (∃ b ∈ a.returned events, b.1.timestamp = bucket) ↔
          ∃ e ∈ events, bucketOf barType (tickOf e) = bucket) ∧
        ∀ b ∈ a.returned events, b.2 = .ok () ∧ b.1.validate = .ok () ∧
          Summarizes barType.canonical ((events.map tickOf).filter fun tick =>
            bucketOf barType tick = b.1.timestamp) b.1) := by
  have hcanonical : barType.canonical.validate = .ok () := by rw [validate_canonical, hvalid]
  let a : BarAggregator := { barType := barType.canonical }
  have hsuits : ∀ e ∈ events, Suits a.barType e := fun e he =>
    ⟨(hevents e he).valid, (hevents e he).kind, (hevents e he).instrument⟩
  have hbatches := List.forall₂_map_right_iff.mp (returned_batches (a := a) rfl hsuits)
  refine ⟨a, by rw [newBarAggregator, hcanonical]; rfl, sum_volume_returned rfl hsuits,
    fun hsorted => ?_⟩
  have hordered : (events.map tickOf).Pairwise
      fun t u => bucketOf a.barType t ≤ bucketOf a.barType u :=
    List.pairwise_map.mpr (hsorted.imp fun hle => truncate_mono _ hle)
  -- the bucket of a batch is that of any of its ticks
  have hbucket : ∀ {g : List AggregationInput} {b : Bar × Except Err Unit},
      Summarizes a.barType g b.1 → ∃ tick ∈ g, bucketOf a.barType tick = b.1.timestamp := by
    intro g b hsum
    obtain ⟨tick, htick⟩ := List.exists_mem_of_ne_nil g hsum.ne_nil
    exact ⟨tick, htick, hsum.bucket tick htick⟩
  refine ⟨pairwise_of_forall₂ hbatches ?_ (batches_pairwise_lt hordered), fun bucket => ?_,
    fun b hb => ?_⟩
  · intro g g' b b' hsum hsum' hlt
    obtain ⟨tick, htick, heq⟩ := hbucket hsum
    obtain ⟨tick', htick', heq'⟩ := hbucket hsum'
    rw [← heq, ← heq']
    exact hlt tick htick tick' htick'
  · constructor
    · rintro ⟨b, hb, rfl⟩
      obtain ⟨g, hg, hsum⟩ := exists_left_of_forall₂ hbatches b hb
      obtain ⟨tick, htick, heq⟩ := hbucket hsum
      obtain ⟨event, hevent, rfl⟩ := List.mem_map.mp (mem_of_mem_batches hg htick)
      exact ⟨event, hevent, heq⟩
    · rintro ⟨event, hevent, rfl⟩
      have hmem : tickOf event ∈ (batches (bucketOf a.barType) (events.map tickOf)).flatten := by
        rw [flatten_batches]
        exact List.mem_map_of_mem hevent
      obtain ⟨g, hg, htick⟩ := List.mem_flatten.mp hmem
      obtain ⟨b, hb, hsum⟩ := exists_right_of_forall₂ hbatches g hg
      exact ⟨b, hb, (hsum.bucket _ htick).symm⟩
  · obtain ⟨g, hg, hsum⟩ := exists_left_of_forall₂ hbatches b hb
    obtain ⟨tick, htick, heq⟩ := hbucket hsum
    have hbar : b.1.validate = .ok () :=
      hsum.valid (by rw [BarType.canonical_canonical, hcanonical]) (ticks_pos hsuits hg)
    refine ⟨(err_returned a events b hb).trans hbar, hbar, ?_⟩
    have hfilter := eq_filter_of_mem_batches hordered hg htick
    rw [heq] at hfilter
    rw [hfilter] at hsum
    exact hsum

end Bars

/-! ### Three events -/

def sampleBarType : BarType := { instrumentID := ⟨"BTC-USDT-PERP", "BINANCE"⟩, step := 10 }

def sampleTrade : TradeTick where
  instrumentID := sampleBarType.instrumentID
  price := 100
  size := 2
  aggressorSide := .buyer
  tradeID := "trade-1"
  timestamp := 12

def sampleQuote : QuoteTick where
  instrumentID := sampleBarType.instrumentID
  bidPrice := 101
  askPrice := 102
  bidSize := 1
  askSize := 1
  timestamp := 17

/-- A trade and a quote of one bucket, and a ticker of the next. -/
def sampleEvents : List MarketEvent :=
  [{ trade := some sampleTrade }, { quote := some sampleQuote },
    { ticker := some { instrumentID := sampleBarType.instrumentID, last := 99, timestamp := 20 } }]

theorem suits_sampleEvents : ∀ e ∈ sampleEvents, Suits sampleBarType e := by
  simp only [sampleEvents, List.forall_mem_cons]
  refine ⟨⟨by decide +kernel, .inl rfl, rfl⟩, ⟨by decide +kernel, .inr (.inl rfl), rfl⟩,
    ⟨by decide +kernel, .inr (.inr ⟨_, rfl, by decide +kernel⟩), rfl⟩, List.forall_mem_nil _⟩

theorem bars_of_events_sample : ∃ a, newBarAggregator sampleBarType = .ok a ∧
    ((@BarAggregator.returned exactDecimals a sampleEvents).map (·.1.volume)).sum =
      ((sampleEvents.filterMap (·.trade)).map (·.size)).sum ∧
    (sampleEvents.Pairwise (fun e f => (tickOf e).timestamp ≤ (tickOf f).timestamp) →
      (@BarAggregator.returned exactDecimals a sampleEvents).Pairwise
        (fun b c => b.1.timestamp < c.1.timestamp) ∧
      (∀ bucket, (∃ b ∈ @BarAggregator.returned exactDecimals a sampleEvents,
          b.1.timestamp = bucket) ↔
        ∃ e ∈ sampleEvents, bucketOf sampleBarType (tickOf e) = bucket) ∧
      ∀ b ∈ @BarAggregator.returned exactDecimals a sampleEvents,
        b.2 = .ok () ∧ b.1.validate = .ok () ∧
          Summarizes sampleBarType.canonical ((sampleEvents.map tickOf).filter fun tick =>
            bucketOf sampleBarType tick = b.1.timestamp) b.1) :=
  @bars_of_events exactDecimals exactDivision_exactDecimals _ _ (by decide +kernel)
    suits_sampleEvents

end Exchanges.Data
