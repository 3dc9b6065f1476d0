import Exchanges.Backtest.Operations

/-!
Runs of a backtest as sequences of steps.

`Step` has the plain steps and the fills, where each fill satisfies `Fits` and
may have to satisfy a further condition `G` on the state it is booked in. What
is available at each depth takes such steps only, by induction on the depth: the
operations take them if the calls inside them do. A whole run adds what only the
runner does, setting the clock and recording market data (`Move`).

A property that every move preserves therefore holds at the end of every run,
and at every place where the run was interrupted, as the trace tells.
-/

namespace Exchanges.Backtest

open Exchanges.Lib Exchanges.Lib.Prog Exchanges.Model Relation

set_option linter.unusedSectionVars false

section Runs

variable [DecimalPackage]

/-- The steps of the operations. -/
inductive Step (cfg : Config) (V : OrderStatusReport → Prop) (G : Runtime → Matched → Prop) :
    Runtime → Runtime → Prop where
  | plain {r r' : Runtime} (step : Plain cfg V r r') : Step cfg V G r r'
  | filled {r : Runtime} {m : Matched} (drawn : Nat) (fits : Fits cfg V r m) (guard : G r m) :
      Step cfg V G r (booked r m drawn)

/-! ### What no step changes -/

theorem Plain.market {cfg : Config} {V : OrderStatusReport → Prop} {r r' : Runtime}
    (h : Plain cfg V r r') : r'.market = r.market := by
  cases h with
  | internal same => exact same.market
  | listed list =>
    obtain ⟨_, _, heq⟩ := indexOrderList_eq list r
    rw [heq]
  | _ => rfl

theorem booked_market (r : Runtime) (m : Matched) (drawn : Nat) :
    (booked r m drawn).market = r.market := by
  obtain ⟨pf, h⟩ := booked_eq r m drawn
  rw [h]

theorem Step.market {cfg : Config} {V : OrderStatusReport → Prop}
    {G : Runtime → Matched → Prop} {r r' : Runtime} (h : Step cfg V G r r') :
    r'.market = r.market := by
  cases h with
  | plain step => exact step.market
  | filled drawn fits guard => exact booked_market ..

theorem Plain.currentTime {cfg : Config} {V : OrderStatusReport → Prop} {r r' : Runtime}
    (h : Plain cfg V r r') : r'.currentTime = r.currentTime := by
  cases h with
  | internal same => exact same.currentTime
  | listed list =>
    obtain ⟨_, _, heq⟩ := indexOrderList_eq list r
    rw [heq]
  | _ => rfl

theorem Step.currentTime {cfg : Config} {V : OrderStatusReport → Prop}
    {G : Runtime → Matched → Prop} {r r' : Runtime} (h : Step cfg V G r r') :
    r'.currentTime = r.currentTime := by
  cases h with
  | plain step => exact step.currentTime
  | @filled m drawn fits guard =>
    obtain ⟨pf, heq⟩ := booked_eq r m drawn
    rw [heq]

/-! ### The matches with a book -/

/-- What is known of the matches with a book when they are found. -/
structure Found (order : OrderStatusReport) (book : OrderBook) (consumed : Decimal → Decimal)
    (found : List Match) : Prop where
  source : ∀ m ∈ found, m.source = .orderBook
  timestamp : ∀ m ∈ found, m.timestamp = book.timestamp
  can : ∀ m ∈ found, canMatch order m.price = true
  pos : ∀ m ∈ found, 0 < m.quantity
  total : (found.map (·.quantity)).sum ≤ openQuantity order
  level : ∀ m ∈ found,
    consumed m.price + takenAt m.price found ≤ levelSize m.price (bookLevels order book)

theorem matchOrderBook_total (model : FillModel) (c : Cache) (order : OrderStatusReport)
    (book : OrderBook) (consumed : Decimal → Decimal) {quantity : Decimal} (drawn : Nat)
    (hpos : 0 < quantity) (hle : quantity ≤ openQuantity order) :
    ((matchOrderBook model c order book consumed quantity drawn).1.map (·.quantity)).sum ≤
      quantity := by
  unfold matchOrderBook
  dsimp only
  split_ifs with hcap
  · exact matchLevels_total _ _ _ _ _ _ _ _ hpos.le
  · have hopen : openQuantity order = quantity :=
      le_antisymm (not_lt.mp fun hlt => hcap ⟨hpos, hlt⟩) hle
    rw [hopen]
    exact matchLevels_total _ _ _ _ _ _ _ _ hpos.le

theorem found_of_matchOrderBook (model : FillModel) (c : Cache) (order : OrderStatusReport)
    (book : OrderBook) {consumed : Decimal → Decimal} {quantity : Decimal} (drawn : Nat)
    (hconsumed : ∀ price, 0 ≤ consumed price) (hpos : 0 < quantity)
    (hle : quantity ≤ openQuantity order) :
    Found order book consumed
      (matchOrderBook model c order book consumed quantity drawn).1 where
  source m hm := (matchLevels_match _ _ _ _ _ _ _ _ m hm).1
  timestamp m hm := (matchLevels_match _ _ _ _ _ _ _ _ m hm).2.1
  can m hm := (matchLevels_match _ _ _ _ _ _ _ _ m hm).2.2.1
  pos m hm := (matchLevels_match _ _ _ _ _ _ _ _ m hm).2.2.2
  total := (matchOrderBook_total model c order book consumed drawn hpos hle).trans hle
  level m hm := consumed_add_takenAt_le _ _ _ _ _ _ hconsumed _ _ _ ⟨m, hm, rfl⟩

/-- The fills made so far are those of the matches so far. -/
def Mirrors (earlier : List (Decimal × FillReport)) (made : List Match) : Prop :=
  earlier.map (fun e => (e.1, e.2.quantity)) = made.map fun m => (m.price, m.quantity)

theorem Mirrors.concat {earlier : List (Decimal × FillReport)} {made : List Match}
    (h : Mirrors earlier made) {fill : FillReport} {m : Match}
    (hquantity : fill.quantity = m.quantity) :
    Mirrors (earlier ++ [(m.price, fill)]) (made ++ [m]) := by
  unfold Mirrors at h ⊢
  rw [List.map_append, List.map_append, h]
  simp [hquantity]

theorem Mirrors.sum_eq {earlier : List (Decimal × FillReport)} {made : List Match}
    (h : Mirrors earlier made) :
    (earlier.map (·.2.quantity)).sum = (made.map (·.quantity)).sum := by
  have hsnd := congrArg (fun l => (l.map Prod.snd).sum) h
  simpa [List.map_map, Function.comp_def] using hsnd

theorem Mirrors.atPrice_eq {earlier : List (Decimal × FillReport)} {made : List Match}
    (h : Mirrors earlier made) (price : Decimal) :
    ((earlier.filter fun e => e.1 = price).map (·.2.quantity)).sum = takenAt price made := by
  have hfilter := congrArg (fun l : List (Decimal × Decimal) =>
    ((l.filter fun e => e.1 = price).map Prod.snd).sum) h
  simpa [takenAt, List.filter_map, List.map_map, Function.comp_def] using hfilter

section Found

variable {order : OrderStatusReport} {book : OrderBook} {consumed : Decimal → Decimal}
  {made rest : List Match} {m : Match}

theorem Found.sum_le (h : Found order book consumed (made ++ m :: rest)) :
    (made.map (·.quantity)).sum + m.quantity ≤ openQuantity order := by
  have hrest : 0 ≤ (rest.map (·.quantity)).sum := by
    refine List.sum_nonneg fun x hx => ?_
    obtain ⟨m', hm', rfl⟩ := List.mem_map.mp hx
    exact (h.pos m' (by simp [hm'])).le
  have htotal := h.total
  rw [List.map_append, List.sum_append, List.map_cons, List.sum_cons] at htotal
  linarith

theorem Found.level_sum_le (h : Found order book consumed (made ++ m :: rest)) :
    consumed m.price + takenAt m.price made + m.quantity ≤
      levelSize m.price (bookLevels order book) := by
  have hrest : 0 ≤ takenAt m.price rest := by
    refine List.sum_nonneg fun x hx => ?_
    obtain ⟨m', hm', rfl⟩ := List.mem_map.mp hx
    exact (h.pos m' (by simp [(List.mem_filter.mp hm').1])).le
  have htaken : takenAt m.price (made ++ m :: rest) =
      takenAt m.price made + m.quantity + takenAt m.price rest := by
    simp [takenAt, List.filter_append, add_assoc]
  have hlevel := h.level m (by simp)
  rw [htaken] at hlevel
  linarith

/-- The next fill of a match list. -/
theorem Found.fits {cfg : Config} {V : OrderStatusReport → Prop} {s : Runtime}
    {earlier : List (Decimal × FillReport)} (h : Found order book consumed (made ++ m :: rest))
    (hmirrors : Mirrors earlier made) (hV : V order) (hopen : order.status.isOpen = true)
    (hdata : s.market.lastBooks.get order.instrumentID = some book) :
    Fits cfg V s ⟨order, m.source, m.price, consumed m.price, earlier,
      madeFill cfg s order m.price m.quantity m.timestamp m.source⟩ where
  admissible := hV
  isOpen := hopen
  fill := ⟨_, _, _, rfl⟩
  origin := by
    have hmem : m ∈ made ++ m :: rest := by simp
    have horigin := Origin.orderBook hdata (h.can m hmem)
    rw [← h.timestamp m hmem] at horigin
    simpa [madeFill, rawFill, h.source m hmem] using horigin
  quantity_pos := by simpa [madeFill, rawFill] using h.pos m (by simp)
  quantity_le := by
    have hle := h.sum_le
    rw [← hmirrors.sum_eq] at hle
    simpa [madeFill, rawFill, Matched.earlierQuantity] using hle
  level_le := by
    intro book' _ hdata'
    obtain rfl : book = book' := Option.some_injective _ (hdata.symm.trans hdata')
    have hle := h.level_sum_le
    rw [← hmirrors.atPrice_eq] at hle
    simpa [madeFill, rawFill, Matched.earlierAtPrice] using hle

end Found

theorem fillOrder_ok {cfg : Config} {nested : Nested} {s s' : Runtime}
    {order : OrderStatusReport} {price quantity : Decimal} {ts : Time} {source : FillSource}
    {consumed : Decimal} {earlier : List (Decimal × FillReport)} {fill : FillReport}
    (h : (fillOrder cfg nested order price quantity ts source consumed earlier).run s =
      (.ok fill, s')) : fill = madeFill cfg s order price quantity ts source := by
  rw [fillOrder, run_bind_ok (run_newFillReportWithSource ..)] at h
  obtain ⟨_, s₁, -, hpure⟩ := run_bind_eq_ok.mp h
  obtain ⟨hok, -⟩ := Prod.mk.inj hpure
  exact (Except.ok.inj hok).symm

namespace Inner

variable {cfg : Config} {nested : Nested} {V : Runtime → OrderStatusReport → Prop}
  {I : Runtime → Prop} {G : Runtime → Matched → Prop}
  (h : Inner cfg nested V I fun r r' => Step cfg (V r) G r r')
  {order : OrderStatusReport} {book : OrderBook} {consumed : Decimal → Decimal}

include h

/-- The loop over the matches with a book. What `P` says of the matches to come
and the state has to give the condition on the next fill, and to survive it. -/
theorem follows_fillMatches {found : List Match} {P : List Match → Runtime → Prop}
    (hfound : Found order book consumed found) (hV : ∀ {r}, I r → V r order)
    (hopen : order.status.isOpen = true)
    (hG : ∀ {s m rest earlier}, I s → P (m :: rest) s →
      G s ⟨order, m.source, m.price, consumed m.price, earlier,
        madeFill cfg s order m.price m.quantity m.timestamp m.source⟩)
    (hP : ∀ {s s' m rest earlier fill}, I s → P (m :: rest) s →
      (fillOrder cfg nested order m.price m.quantity m.timestamp m.source (consumed m.price)
        earlier).run s = (.ok fill, s') →
      P rest ((recordConsumption order.instrumentID m.price m.quantity).run s').2)
    (rest : List Match) : ∀ {made earlier s}, found = made ++ rest → Mirrors earlier made → I s →
      s.market.lastBooks.get order.instrumentID = some book → P rest s →
      Follows (fun r r' => Step cfg (V r) G r r')
        (fillMatches cfg nested order consumed earlier rest) s := by
  induction rest with
  | nil => exact fun _ _ hs _ _ => Goes.pure () _ hs
  | cons m rest ih =>
    intro made earlier s hsplit hmirrors hs hdata hPs
    subst hsplit
    have hstep : Step cfg (V s) G s (booked s ⟨order, m.source, m.price, consumed m.price, earlier,
        madeFill cfg s order m.price m.quantity m.timestamp m.source⟩
        (slippage cfg s order m.price m.quantity m.timestamp m.source).2) :=
      .filled _ (hfound.fits hmirrors (hV hs) hopen hdata) (hG hs hPs)
    refine (h.follows_fillOrder hs hstep).bind fun fill s₁ hrun hstar => ?_
    have hquantity : fill.quantity = m.quantity := by
      rw [fillOrder_ok hrun]
      simp [madeFill, rawFill]
    have hs₁ : I s₁ := h.stable.star hstar hs
    have hconsume := h.goes_recordConsumption order.instrumentID m.price
      (hfound.pos m (by simp)) s₁ hs₁
    refine hconsume.bind fun _ s₂ hrun₂ hstar₂ => ?_
    have hmarket : s₂.market = s.market := by
      have hstable : Stable (fun r : Runtime => r.market = s.market)
          fun r r' => Step cfg (V r) G r r' :=
        fun r r' hrr' hr => hrr'.market.trans hr
      exact hstable.star (hstar.trans hstar₂) rfl
    have hPs₂ : P rest s₂ := by
      have hnext := hP hs hPs hrun
      rwa [hrun₂] at hnext
    exact ih (by simp) (hmirrors.concat hquantity) (h.stable.star hstar₂ hs₁)
      (by rw [hmarket, hdata]) hPs₂

theorem goes_matchAgainstBook {P : List Match → Runtime → Prop} (hV : ∀ {r}, I r → V r order)
    (hopen : order.status.isOpen = true)
    (hstart : ∀ {s : Runtime} {book : OrderBook} (drawn : Nat), I s →
      0 < matchQuantity s.cache order →
      P (matchOrderBook cfg.fillModel s.cache order book (s.consumed order.instrumentID)
        (matchQuantity s.cache order) s.drawn).1 { s with drawn := drawn })
    (hG : ∀ {s m rest consumed earlier}, I s → P (m :: rest) s →
      G s ⟨order, m.source, m.price, consumed, earlier,
        madeFill cfg s order m.price m.quantity m.timestamp m.source⟩)
    (hP : ∀ {s s' m rest consumed earlier fill}, I s → P (m :: rest) s →
      (fillOrder cfg nested order m.price m.quantity m.timestamp m.source consumed
        earlier).run s = (.ok fill, s') →
      P rest ((recordConsumption order.instrumentID m.price m.quantity).run s').2) :
    Goes I (fun r r' => Step cfg (V r) G r r') (matchAgainstBook cfg nested order) := by
  refine Goes.get_bind fun s hs => ?_
  split
  · exact Goes.pure false s hs
  · next book hdata =>
      dsimp only
      split_ifs with hpos
      · have hfound := found_of_matchOrderBook cfg.fillModel s.cache order book s.drawn
          (h.consumed hs order.instrumentID) hpos (matchQuantity_le s.cache order hpos)
        have hstep : ∀ drawn, Step cfg (V s) G s { s with drawn := drawn } := fun drawn =>
          .plain (.internal ⟨rfl, rfl, rfl, rfl, rfl, rfl, rfl, rfl, rfl, rfl, rfl⟩ (.of_eq rfl))
        refine (Follows.single (hstep _)).bind fun _ s₁ hrun hstar => ?_
        have hs₁ : I s₁ := h.stable.star hstar hs
        obtain ⟨-, rfl⟩ := Prod.mk.inj hrun
        have hnone : Mirrors [] [] := rfl
        exact Goes.bind_at h.stable hs₁ (h.follows_fillMatches hfound hV hopen hG hP _
          (List.nil_append _).symm hnone hs₁ hdata (hstart _ hs hpos)) fun _ => Goes.pure _
      · exact Goes.pure false s hs

end Inner

/-! ### Every depth -/

section Depth

variable {cfg : Config} {V : Runtime → OrderStatusReport → Prop} {I : Runtime → Prop}
  {R : Runtime → Runtime → Prop}

theorem goes_forAll (hI : Stable I R) {f : Strategy → Prog Runtime Err Unit}
    (hf : ∀ s, Goes I R (f s)) (strategies : List Strategy) : Goes I R (forAll f strategies) := by
  induction strategies with
  | nil => exact Goes.pure ()
  | cons s strategies ih =>
    refine Goes.bind hI (hf s).attempt fun first => ?_
    refine Goes.bind hI ih.attempt fun rest => ?_
    split
    · exact Goes.fail _
    · exact Goes.lift _

/-- Without room nothing happens. -/
theorem Ground.inner_zero (h : Ground cfg V I R) (strategies : List Strategy) :
    Inner cfg (nestedAt cfg strategies 0) V I R :=
  { h with
    tell := fun _ _ => Goes.fail _
    process := fun _ => Goes.fail _
    matchOrder := Goes.fail _ }

theorem Closed.inner_succ {strategies : List Strategy} {depth : Nat}
    (h : Closed cfg (nestedAt cfg strategies depth) V I R) :
    Inner cfg (nestedAt cfg strategies (depth + 1)) V I R :=
  { h.toGround with
    tell := fun _ _ => goes_forAll h.stable (fun s => h.goes_callStrategy s _ _) strategies
    process := fun _ => goes_forAll h.stable (fun s => h.goes_callStrategy s _ _) strategies
    matchOrder := fun {o} => (h.knowing o).goes_matchOrder fun hr => hr.2 }

end Depth

/-- The steps with no condition on fills but `Fits`. -/
abbrev AnyStep (cfg : Config) (V : OrderStatusReport → Prop) : Runtime → Runtime → Prop :=
  Step cfg V fun _ _ => True

section Depth

variable {cfg : Config} {V : Runtime → OrderStatusReport → Prop} {I : Runtime → Prop}

theorem Inner.closed {nested : Nested}
    (h : Inner cfg nested V I fun r r' => AnyStep cfg (V r) r r') :
    Closed cfg nested V I fun r r' => AnyStep cfg (V r) r r' :=
  { h with
    single := fun drawn _ fits _ _ => .filled drawn fits trivial
    book := fun {o} hopen => (h.knowing o).goes_matchAgainstBook (P := fun _ _ => True)
      (fun hr => hr.2) hopen (fun _ _ _ => trivial) (fun _ _ => trivial) (fun _ _ _ => trivial) }

theorem Ground.closed (h : Ground cfg V I fun r r' => AnyStep cfg (V r) r r')
    (strategies : List Strategy) (depth : Nat) :
    Closed cfg (nestedAt cfg strategies depth) V I fun r r' => AnyStep cfg (V r) r r' := by
  induction depth with
  | zero => exact (h.inner_zero strategies).closed
  | succ depth ih => exact ih.inner_succ.closed

end Depth

/-! ### Whole runs -/

/-- The runtime with another time. -/
def Runtime.atTime (r : Runtime) (tick : Tick) (t : Time) : Runtime :=
  { r with
    currentTime := t
    trace := r.trace ++ [.clock tick r.currentTime t r.cache] }

/-- What is known when the clock is set: at the start nothing has happened yet,
and the next event is not before the present. -/
def Tick.Due (r : Runtime) (t : Time) : Tick → Prop
  | .start => r.trace = []
  | .event => r.currentTime ≤ t
  | _ => True

/-- The runtime with the data of a market event. -/
def Runtime.withMarket (r : Runtime) (event : MarketEvent) : Runtime :=
  { rememberEvent event r with
    trace := (rememberEvent event r).trace ++ [.market r.currentTime event] }

theorem remember_eq {α : Type} (data : Option α) (id : α → InstrumentID)
    (put : α → Market → Market) (r : Runtime) : ∃ market consumed,
      remember data id put r = { r with market := market, consumed := consumed } := by
  unfold remember
  split
  · exact ⟨r.market, r.consumed, rfl⟩
  · exact ⟨_, _, rfl⟩

/-- Market data changes only what is remembered of the market, and what counts
as consumed. -/
theorem rememberEvent_eq (event : MarketEvent) (r : Runtime) : ∃ market consumed,
    rememberEvent event r = { r with market := market, consumed := consumed } := by
  unfold rememberEvent
  dsimp only
  obtain ⟨_, _, h1⟩ := remember_eq event.ticker (·.instrumentID)
    (fun t m => { m with lastTicker := m.lastTicker.put t.instrumentID t }) r
  rw [h1]
  obtain ⟨_, _, h2⟩ := remember_eq event.orderBook (·.instrumentID)
    (fun b m => { m with lastBooks := m.lastBooks.put b.instrumentID b }) _
  rw [h2]
  obtain ⟨_, _, h3⟩ := remember_eq event.trade (·.instrumentID)
    (fun t m => { m with lastTrades := m.lastTrades.put t.instrumentID t }) _
  rw [h3]
  obtain ⟨_, _, h4⟩ := remember_eq event.quote (·.instrumentID)
    (fun q m => { m with lastQuotes := m.lastQuotes.put q.instrumentID q }) _
  rw [h4]
  obtain ⟨_, _, h5⟩ := remember_eq event.bar (fun b => b.barType.canonical.instrumentID)
    (fun b m => { m with lastBars := m.lastBars.put b.barType.canonical.instrumentID b }) _
  rw [h5]
  exact ⟨_, _, rfl⟩

theorem market_remember {α : Type} (data : Option α) (id : α → InstrumentID)
    (put : α → Market → Market) (r : Runtime) :
    (remember data id put r).market = data.elim r.market fun a => put a r.market := by
  cases data <;> rfl

/-- The data of a market event replaces what was remembered of its kind. -/
theorem market_withMarket (r : Runtime) (event : MarketEvent) :
    (r.withMarket event).market =
      { lastTicker := event.ticker.elim r.market.lastTicker fun t =>
          r.market.lastTicker.put t.instrumentID t
        lastBooks := event.orderBook.elim r.market.lastBooks fun b =>
          r.market.lastBooks.put b.instrumentID b
        lastTrades := event.trade.elim r.market.lastTrades fun t =>
          r.market.lastTrades.put t.instrumentID t
        lastQuotes := event.quote.elim r.market.lastQuotes fun q =>
          r.market.lastQuotes.put q.instrumentID q
        lastBars := event.bar.elim r.market.lastBars fun b =>
          r.market.lastBars.put b.barType.canonical.instrumentID b } := by
  unfold Runtime.withMarket rememberEvent
  simp only [market_remember]
  cases event.ticker <;> cases event.orderBook <;> cases event.trade <;> cases event.quote <;>
    cases event.bar <;> rfl

/-- The steps of a run: those of the operations, and those of the runner. -/
inductive Move (R : Runtime → Runtime → Prop) (events : List Event) : Runtime → Runtime → Prop where
  | step {r r' : Runtime} (step : R r r') : Move R events r r'
  | clock (r : Runtime) (tick : Tick) (t : Time) (due : tick.Due r t) :
      Move R events r (r.atTime tick t)
  | market (r : Runtime) {event : MarketEvent}
      (now : ∃ e ∈ events, e.time = r.currentTime ∧ e.message = .market event) :
      Move R events r (r.withMarket event)

/-- The moves that do not set the clock beyond a deadline. -/
def Until (R : Runtime → Runtime → Prop) (events : List Event) (deadline : Time)
    (r r' : Runtime) : Prop :=
  Move R events r r' ∧ (r.currentTime ≤ deadline → r'.currentTime ≤ deadline)

omit [DecimalPackage] in
theorem nextDueTimer_le {r : Runtime} {deadline : Time} {timer : TimerState}
    (h : nextDueTimer r deadline = some timer) : timer.next ≤ deadline := by
  have hfold : ∀ (timers : List TimerState) (best : Option TimerState),
      (∀ t ∈ best, t.next ≤ deadline) →
        ∀ t ∈ timers.foldl (earlierTimer deadline) best, t.next ≤ deadline := by
    intro timers
    induction timers with
    | nil => exact fun _ hbest => hbest
    | cons next timers ih =>
      intro best hbest
      refine ih _ fun t ht => ?_
      unfold earlierTimer at ht
      split_ifs at ht with hlate
      · exact hbest t ht
      · split at ht
        · cases ht
          exact not_lt.mp hlate
        · split_ifs at ht
          · cases ht
            exact not_lt.mp hlate
          · exact hbest t ht
  exact hfold _ none (by simp) timer h

section Run

variable {V : Runtime → OrderStatusReport → Prop} {I : Runtime → Prop}
  {R : Runtime → Runtime → Prop} {setup : Setup} (h : Closed setup.cfg setup.nested V I R)
  (hI : Stable I (Move R setup.events)) (hkept : ∀ o, Stable (V · o) (Move R setup.events))
  (hclock : ∀ {r r' : Runtime}, R r r' → r'.currentTime = r.currentTime) {deadline : Time}

include hI in
theorem stable_until (deadline : Time) : Stable (fun r => I r ∧ r.currentTime ≤ deadline)
    (Until R setup.events deadline) :=
  fun _ _ hmove hr => ⟨hI _ _ hmove.1 hr.1, hmove.2 hr.2⟩

include hclock in
theorem goes_until {α : Type} {p : Prog Runtime Err α} (hp : Goes I R p) :
    Goes (fun r => I r ∧ r.currentTime ≤ deadline) (Until R setup.events deadline) p :=
  fun s hs => (hp s hs.1).mono fun _ _ hstep => ⟨.step hstep, fun hle => (hclock hstep).trans_le hle⟩

theorem goes_setTime {tick : Tick} {t : Time} (ht : t ≤ deadline)
    (hdue : ∀ r : Runtime, r.currentTime ≤ deadline → tick.Due r t) :
    Goes (fun r => I r ∧ r.currentTime ≤ deadline) (Until R setup.events deadline)
      (setTime tick t) :=
  Goes.modify fun r hr => ⟨.clock r tick t (hdue r hr.2), fun _ => ht⟩

include h hI hclock

theorem goes_dispatchTimersDue (room : Nat) :
    Goes (fun r => I r ∧ r.currentTime ≤ deadline) (Until R setup.events deadline)
      (dispatchTimersDue setup.nested room deadline) := by
  have hstable := stable_until hI deadline
  induction room with
  | zero => exact Goes.fail _
  | succ room ih =>
    refine Goes.get_bind' fun r => ?_
    split
    · exact Goes.pure ()
    · next timer hdue =>
        refine Goes.bind hstable (goes_setTime (nextDueTimer_le hdue) fun _ _ => trivial)
          fun _ => ?_
        refine Goes.bind hstable (goes_until hclock (h.process _)) fun _ => ?_
        refine Goes.bind hstable
          (goes_until hclock (Goes.modify fun s _ => h.plain
            (.internal ?_ (retimed_advance s timer)))) fun _ => ih
        unfold advanceTimer
        split
        · dsimp only
          split_ifs
          · exact ⟨rfl, rfl, rfl, rfl, rfl, rfl, rfl, rfl, rfl, rfl, rfl⟩
          · exact ⟨rfl, rfl, rfl, rfl, rfl, rfl, rfl, rfl, rfl, rfl, rfl⟩
        · exact ⟨rfl, rfl, rfl, rfl, rfl, rfl, rfl, rfl, rfl, rfl, rfl⟩

theorem goes_forEachAccount {f : AccountID → Prog Runtime Err Unit}
    (hf : ∀ a, Goes (fun r => I r ∧ r.currentTime ≤ deadline)
      (Until R setup.events deadline) (f a)) :
    Goes (fun r => I r ∧ r.currentTime ≤ deadline) (Until R setup.events deadline)
      (forEachAccount setup.enumeration f) := by
  have hstable := stable_until hI deadline
  refine Goes.get_bind' fun r => ?_
  refine Goes.bind hstable
    (goes_until hclock (Goes.modify fun s _ => h.plain (.internal ?_ (.of_eq rfl)))) fun _ => ?_
  · exact ⟨rfl, rfl, rfl, rfl, rfl, rfl, rfl, rfl, rfl, rfl, rfl⟩
  · refine Goes.forEach hstable fun a _ => Goes.get_bind' fun now => ?_
    split_ifs
    · exact hf a
    · exact Goes.pure ()

include hkept in
/-- A loop over orders that something is known of at its start. -/
theorem goes_forEachOrder {f : OrderStatusReport → Prog Runtime Err Unit}
    {orders : List OrderStatusReport}
    (hf : ∀ o ∈ orders, Goes (fun r => (I r ∧ V r o) ∧ r.currentTime ≤ deadline)
      (Until R setup.events deadline) (f o)) {s : Runtime}
    (hs : I s ∧ s.currentTime ≤ deadline) (hV : ∀ o ∈ orders, V s o) :
    Follows (Until R setup.events deadline) (Prog.forEach f orders) s := by
  have hstable : Stable (fun r => (I r ∧ r.currentTime ≤ deadline) ∧ ∀ o ∈ orders, V r o)
      (Until R setup.events deadline) := (stable_until hI deadline).and
    fun r r' hmove hr o ho => hkept o r r' hmove.1 (hr o ho)
  exact Goes.forEach hstable (fun o ho r hr => hf o ho r ⟨⟨hr.1.1, hr.2 o ho⟩, hr.1.2⟩) s ⟨hs, hV⟩

include hkept

theorem goes_matchAccount (a : AccountID) :
    Goes (fun r => I r ∧ r.currentTime ≤ deadline) (Until R setup.events deadline) (do
      let r ← Prog.get
      Prog.forEach (matchOrder setup.cfg setup.nested) (r.cache.openOrders a)) := by
  refine Goes.get_bind fun s hs => goes_forEachOrder h hI hkept hclock (fun o _ => ?_) hs
    fun o ho => h.stored hs.1 (cached_openOrders ho)
  exact goes_until hclock ((h.knowing o).goes_matchOrder fun hr => hr.2)

theorem goes_expireOrder {o : OrderStatusReport} (hopen : o.status.isOpen = true)
    (hexpire : o.expireTime ≤ deadline) :
    Goes (fun r => (I r ∧ V r o) ∧ r.currentTime ≤ deadline) (Until R setup.events deadline)
      (expireOrder setup.nested o) := by
  refine Goes.bind (stable_until (hI.and (hkept o)) _) (goes_setTime hexpire fun _ _ => trivial)
    fun _ => goes_until hclock fun s hs => ?_
  refine h.follows_applyReport hs.1 ?_ _ _
  exact .expired hs.2 hopen ⟨rfl, rfl, rfl, rfl, rfl, rfl, rfl, .inr ⟨rfl, rfl⟩⟩ rfl

theorem goes_expireAccount (a : AccountID) :
    Goes (fun r => I r ∧ r.currentTime ≤ deadline) (Until R setup.events deadline) (do
      let r ← Prog.get
      Prog.forEach (fun order =>
        if shouldExpire order deadline then expireOrder setup.nested order else pure ())
        (r.cache.openOrders a)) := by
  refine Goes.get_bind fun s hs => goes_forEachOrder h hI hkept hclock (fun o _ => ?_) hs
    fun o ho => h.stored hs.1 (cached_openOrders ho)
  split_ifs with hexpire
  · simp only [shouldExpire, Bool.and_eq_true, decide_eq_true_eq] at hexpire
    obtain ⟨⟨⟨-, hopen⟩, -⟩, hle⟩ := hexpire
    exact goes_expireOrder h hI hkept hclock hopen hle
  · exact Goes.pure ()

omit h hI hclock hkept in
/-- Market data is recorded at the time of its event. -/
theorem follows_recordMarket {event : Event} (hevent : event ∈ setup.events) {s : Runtime}
    (htime : s.currentTime = event.time) :
    Follows (Until R setup.events deadline) (recordMarket event.message) s := by
  unfold recordMarket
  split
  · next message heq =>
      refine Follows.single ⟨.market s ⟨event, hevent, htime.symm, heq⟩, fun hle => ?_⟩
      obtain ⟨_, _, hremember⟩ := rememberEvent_eq message s
      have hsame : (s.withMarket message).currentTime = s.currentTime := by
        rw [Runtime.withMarket, hremember]
      exact hsame.trans_le hle
  · exact Follows.of_eq rfl

/-! The rest of the runner is compared with a runner that enumerates the accounts
in another way. All depends on whether a pass over the accounts does the same. -/

section Enumerations

variable {e : Enumeration} {P : Runtime → Prop}
  (hP : ∀ r r', Move R setup.events r r' → P r' → P r)
  (hpass : ∀ (deadline : Time) (f : AccountID → Prog Runtime Err Unit),
    (∀ b, Goes (fun r => I r ∧ r.currentTime ≤ deadline) (Until R setup.events deadline) (f b)) →
    ∀ s, I s ∧ s.currentTime ≤ deadline →
      Agrees (Until R setup.events deadline) P (forEachAccount setup.enumeration f)
        (forEachAccount e f) s)

include hP hpass

theorem agrees_matchOnMarketData (event : Event) {s : Runtime}
    (hs : I s ∧ s.currentTime ≤ deadline) :
    Agrees (Until R setup.events deadline) P (setup.matchOnMarketData event)
      ((setup.enumeratedBy e).matchOnMarketData event) s := by
  unfold Setup.matchOnMarketData
  split_ifs
  · exact hpass deadline _ (goes_matchAccount h hI hkept hclock) s hs
  · exact .refl .refl

theorem agrees_processEvent {event : Event} (hevent : event ∈ setup.events) {s : Runtime}
    (hs : I s ∧ s.currentTime ≤ event.time) :
    Agrees (Until R setup.events event.time) P (setup.processEvent event)
      ((setup.enumeratedBy e).processEvent event) s := by
  have hstable := stable_until hI event.time
  have hreflects : ∀ r r', Until R setup.events event.time r r' → P r' → P r :=
    fun r r' hmove => hP r r' hmove.1
  unfold Setup.processEvent
  refine Agrees.bind hreflects (.refl (goes_dispatchTimersDue h hI hclock _ s hs))
    fun _ s₁ _ hstar₁ => ?_
  have hs₁ := hstable.star hstar₁ hs
  refine Agrees.bind hreflects (hpass _ _ (goes_expireAccount h hI hkept hclock) s₁ hs₁)
    fun _ s₂ _ hstar₂ => ?_
  have hs₂ := hstable.star hstar₂ hs₁
  refine Agrees.bind hreflects (.refl (goes_setTime le_rfl (fun _ hle => hle) s₂ hs₂))
    fun _ s₃ hrun₃ hstar₃ => ?_
  have hs₃ := hstable.star hstar₃ hs₂
  have htime : s₃.currentTime = event.time := by
    obtain ⟨-, rfl⟩ := Prod.mk.inj hrun₃
    rfl
  refine Agrees.bind hreflects (.refl (follows_recordMarket hevent htime))
    fun _ s₄ _ hstar₄ => ?_
  have hs₄ := hstable.star hstar₄ hs₃
  refine Agrees.bind hreflects (agrees_matchOnMarketData h hI hkept hclock hP hpass event hs₄)
    fun _ s₅ _ hstar₅ => ?_
  have hs₅ := hstable.star hstar₅ hs₄
  refine Agrees.bind hreflects (.refl (goes_until hclock (h.process _) s₅ hs₅))
    fun _ s₆ _ hstar₆ => ?_
  exact agrees_matchOnMarketData h hI hkept hclock hP hpass event (hstable.star hstar₆ hs₅)

/-- The loop of `Run`. The clock is never ahead of the events to come. -/
theorem agrees_events (events : List Event) : ∀ s, I s →
    events.Pairwise (fun a b : Event => a.time ≤ b.time) → (∀ e ∈ events, e ∈ setup.events) →
    (∀ e ∈ events, s.currentTime ≤ e.time) →
      Agrees (Move R setup.events) P (Prog.forEach setup.processEvent events)
        (Prog.forEach (setup.enumeratedBy e).processEvent events) s := by
  induction events with
  | nil => exact fun s _ _ _ _ => .refl .refl
  | cons event events ih =>
    intro s hs hsorted hmem hle
    rw [List.pairwise_cons] at hsorted
    have hstart : I s ∧ s.currentTime ≤ event.time := ⟨hs, hle event List.mem_cons_self⟩
    have hevent := agrees_processEvent h hI hkept hclock hP hpass (hmem event List.mem_cons_self) hstart
    refine Agrees.bind hP (hevent.mono fun _ _ hmove => hmove.1) fun _ s₁ hrun _ => ?_
    obtain ⟨hs₁, hle₁⟩ := (stable_until hI _).star (hevent.1.of_run hrun) hstart
    exact ih s₁ hs₁ hsorted.2 (fun e he => hmem e (List.mem_cons_of_mem _ he))
      fun e he => hle₁.trans (hsorted.1 e he)

theorem agrees_run {s : Runtime} (hs : I s) (hfresh : s.trace = []) :
    Agrees (Move R setup.events) P setup.run (setup.enumeratedBy e).run s := by
  have hperm := List.perm_insertionSort (fun a b : Event => a.time ≤ b.time) setup.events
  have hsorted : setup.sortedEvents.Pairwise (fun a b : Event => a.time ≤ b.time) :=
    List.pairwise_insertionSort _ setup.events
  -- the clock is set to the time of the first event, if there is one
  have hstart : Follows (Move R setup.events) setup.startClock s ∧
      ∀ s₁, (setup.startClock.run s) = (.ok (), s₁) →
        ∀ e ∈ setup.sortedEvents, s₁.currentTime ≤ e.time := by
    unfold Setup.startClock
    split
    · next hnil => exact ⟨.refl, fun _ _ e he => by simp [hnil] at he⟩
    · next first events heq =>
        refine ⟨Follows.single (.clock s .start first.time hfresh), fun s₁ hrun e he => ?_⟩
        obtain ⟨-, rfl⟩ := Prod.mk.inj hrun
        rw [heq] at he hsorted
        rcases List.mem_cons.mp he with rfl | he
        · exact le_rfl
        · exact (List.pairwise_cons.mp hsorted).1 e he
  refine Agrees.bind hP (.refl hstart.1) fun _ s₁ hrun hstar => ?_
  have hs₁ := hI.star hstar hs
  have hcalls : Follows R (Prog.forEach (fun s => callStrategy setup.cfg setup.nested s false
      s.onStart) setup.strategies) s₁ :=
    Goes.forEach h.stable (fun s _ => h.goes_callStrategy s false s.onStart) s₁ hs₁
  refine Agrees.bind hP (.refl (hcalls.mono fun _ _ hstep => .step hstep))
    fun _ s₂ hrun₂ hstar₂ => ?_
  have hs₂ := hI.star hstar₂ hs₁
  have htime : s₂.currentTime = s₁.currentTime := by
    have hstable : Stable (fun r : Runtime => r.currentTime = s₁.currentTime) R :=
      fun r r' hstep hr => (hclock hstep).trans hr
    exact hstable.star (hcalls.of_run hrun₂) rfl
  have hevents := agrees_events h hI hkept hclock hP hpass setup.sortedEvents s₂ hs₂ hsorted
    (fun e he => hperm.subset he) (by rw [htime]; exact hstart.2 s₁ hrun)
  refine Agrees.bind hP hevents.attempt fun result s₃ _ hstar₃ => ?_
  have hstop := goes_forAll h.stable (fun s => h.goes_callStrategy s false s.onStop)
    setup.strategies s₃ (hI.star hstar₃ hs₂)
  refine Agrees.bind hP (.refl (hstop.mono fun _ _ hstep => .step hstep).attempt)
    fun stopped s₄ _ _ => .refl ?_
  split
  · exact .refl
  · exact .refl

end Enumerations

theorem follows_run {s : Runtime} (hs : I s) (hfresh : s.trace = []) :
    Follows (Move R setup.events) setup.run s :=
  (agrees_run h hI hkept hclock (e := setup.enumeration) (P := fun _ => True) (fun _ _ _ _ => trivial)
    (fun _ _ hf s hs => .refl (goes_forEachAccount h hI hclock hf s hs)) hs hfresh).1

/-- A run is a sequence of moves. -/
theorem moves_result {c : Cache} {p : Portfolio} (hinit : I (initial c p)) :
    ReflTransGen (Move R setup.events) (initial c p) (setup.result c p) :=
  follows_run h hI hkept hclock hinit rfl

end Run

/-! ### What is added to the trace -/

/-- The entries that a move from `r` to `r'` can add, with a fill or without. -/
inductive Logs (cfg : Config) (r r' : Runtime) : Option Matched → Entry → Prop where
  | callback : Logs cfg r r' none (.callback r.currentTime r.cache)
  | commanded (execution : Bool) : Logs cfg r r' none (.commanded execution)
  | listed (list : OrderList) : Logs cfg r r' none (.listed list)
  | tested (o : OrderStatusReport) : Logs cfg r r' none (.tested o r.cache)
  | reported (report : OrderStatusReport) (result : Except Err Unit) :
      Logs cfg r r' none (.reported r.currentTime r.cache report result)
  | accepted (report : OrderStatusReport) :
      Logs cfg r r' none (.accepted r.currentTime report (eligibleTime cfg r))
  | filled (m : Matched) :
      Logs cfg r r' (some m) (.filled r.currentTime r.cache r.market m)
  | positioned (m : Matched) : Logs cfg r r' (some m) (.positioned r.cache r'.cache m)
  | clock (tick : Tick) (t : Time) : Logs cfg r r' none (.clock tick r.currentTime t r.cache)
  | market (event : MarketEvent) : Logs cfg r r' none (.market r.currentTime event)

/-- The trace grows, by entries of the listed kinds. -/
def Extends (cfg : Config) (matched : Option Matched) (r r' : Runtime) : Prop :=
  ∃ entries, r'.trace = r.trace ++ entries ∧ ∀ e ∈ entries, Logs cfg r r' matched e

theorem Extends.single {cfg : Config} {r r' : Runtime} {e : Entry}
    (htrace : r'.trace = r.trace ++ [e]) (he : Logs cfg r r' none e) : Extends cfg none r r' :=
  ⟨[e], htrace, by simpa using he⟩

theorem Extends.none {cfg : Config} {r r' : Runtime} (htrace : r'.trace = r.trace) :
    Extends cfg none r r' :=
  ⟨[], by simpa using htrace, by simp⟩

/-- What an entry of the trace after a move is. -/
theorem Extends.mem {cfg : Config} {matched : Option Matched} {r r' : Runtime}
    (h : Extends cfg matched r r') {e : Entry} (he : e ∈ r'.trace) :
    e ∈ r.trace ∨ Logs cfg r r' matched e := by
  obtain ⟨entries, heq, hlogs⟩ := h
  rw [heq, List.mem_append] at he
  exact he.imp_right (hlogs e)

theorem Plain.extends {cfg : Config} {V : OrderStatusReport → Prop} {r r' : Runtime}
    (h : Plain cfg V r r') : Extends cfg none r r' := by
  cases h with
  | internal same => exact .none same.trace
  | callback => exact .single rfl .callback
  | commanded execution => exact .single rfl (.commanded execution)
  | listed list =>
    obtain ⟨_, _, heq⟩ := indexOrderList_eq list r
    rw [heq]
    exact .single rfl (.listed list)
  | released key => exact .none rfl
  | tested o isOpen untriggered => exact .single rfl (.tested o)
  | reported amendment => exact .single rfl (.reported _ _)
  | stored storing => exact .single rfl (.reported _ _)
  | submitted valid => exact .single rfl (.reported _ _)
  | account snapshot => exact .none rfl
  | registered report => exact .single rfl (.accepted report)
  | consumed id price pos => exact .none rfl

/-- The entries other than those of market data and of fills. -/
def Entry.IsIdle : Entry → Prop
  | .market .. | .filled .. => False
  | _ => True

/-- A plain step adds at most one entry. -/
theorem Plain.trace {cfg : Config} {V : OrderStatusReport → Prop} {r r' : Runtime}
    (h : Plain cfg V r r') :
    r'.trace = r.trace ∨ ∃ e : Entry, r'.trace = r.trace ++ [e] ∧ e.IsIdle := by
  cases h with
  | internal same => exact .inl same.trace
  | listed list =>
    obtain ⟨_, _, heq⟩ := indexOrderList_eq list r
    rw [heq]
    exact .inr ⟨.listed list, rfl, trivial⟩
  | released key => exact .inl rfl
  | account snapshot => exact .inl rfl
  | consumed id price pos => exact .inl rfl
  | _ => exact .inr ⟨_, rfl, trivial⟩

/-- A fill adds itself and then the position, as far as they are applied. -/
theorem booked_trace (r : Runtime) (m : Matched) (drawn : Nat) :
    (booked r m drawn).trace = r.trace ∨
      (booked r m drawn).trace = r.trace ++ [.filled r.currentTime r.cache r.market m] ∨
      (booked r m drawn).trace = r.trace ++ [.filled r.currentTime r.cache r.market m] ++
        [.positioned r.cache (booked r m drawn).cache m] := by
  obtain ⟨pf, heq⟩ := booked_eq r m drawn
  rw [heq]
  dsimp only
  obtain hentries | hentries | hentries := fillEntries_cases r m
  · exact .inl (by simp [hentries])
  · exact .inr (.inl (by rw [hentries]))
  · exact .inr (.inr (by simp [hentries]))

theorem booked_extends (cfg : Config) (r : Runtime) (m : Matched) (drawn : Nat) :
    Extends cfg (some m) r (booked r m drawn) := by
  obtain ⟨pf, heq⟩ := booked_eq r m drawn
  rw [heq]
  refine ⟨fillEntries r m, rfl, fun e he => ?_⟩
  rcases mem_fillEntries he with rfl | rfl
  · exact .filled m
  · exact .positioned m

theorem Move.extends {cfg : Config} {V : OrderStatusReport → Prop}
    {G : Runtime → Matched → Prop} {events : List Event} {r r' : Runtime}
    (h : Move (Step cfg V G) events r r') : ∃ matched, Extends cfg matched r r' ∧
      ∀ m, matched = some m → Fits cfg V r m ∧ G r m ∧ ∃ drawn, r' = booked r m drawn := by
  have hnone : ∀ m, (none : Option Matched) = some m →
      Fits cfg V r m ∧ G r m ∧ ∃ drawn, r' = booked r m drawn := fun m hm => by cases hm
  cases h with
  | step step =>
    cases step with
    | plain step => exact ⟨none, step.extends, hnone⟩
    | filled drawn fits guard =>
      refine ⟨_, booked_extends cfg r _ drawn, fun m hm => ?_⟩
      cases hm
      exact ⟨fits, guard, drawn, rfl⟩
  | clock tick t due => exact ⟨none, .single rfl (.clock tick t), hnone⟩
  | @market event now =>
    refine ⟨none, ?_, hnone⟩
    obtain ⟨_, _, heq⟩ := rememberEvent_eq event r
    rw [Runtime.withMarket, heq]
    exact .single rfl (.market event)

/-! ### Every run -/

/-- Nothing negative was consumed. -/
def Consumed (r : Runtime) : Prop := ∀ id price, 0 ≤ r.consumed id price

theorem Plain.consumed_nonneg {cfg : Config} {V : OrderStatusReport → Prop} {r r' : Runtime}
    (h : Plain cfg V r r') (hr : Consumed r) : Consumed r' := by
  cases h with
  | internal same =>
    rw [Consumed, same.consumed]
    exact hr
  | listed list =>
    obtain ⟨_, _, heq⟩ := indexOrderList_eq list r
    rw [heq]
    exact hr
  | consumed id price pos =>
    intro id' price'
    change 0 ≤ if id' = id ∧ price' = price then _ else _
    split_ifs
    · exact add_nonneg (hr id price) pos.le
    · exact hr id' price'
  | _ => exact hr

theorem Step.consumed_nonneg {cfg : Config} {V : OrderStatusReport → Prop}
    {G : Runtime → Matched → Prop} {r r' : Runtime} (h : Step cfg V G r r') (hr : Consumed r) :
    Consumed r' := by
  cases h with
  | plain step => exact step.consumed_nonneg hr
  | filled drawn fits guard =>
    obtain ⟨pf, heq⟩ := booked_eq r _ drawn
    rw [heq]
    exact hr

theorem remember_consumed {α : Type} (data : Option α) (id : α → InstrumentID)
    (put : α → Market → Market) {r : Runtime} (hr : Consumed r) :
    Consumed (remember data id put r) := by
  unfold remember
  split
  · exact hr
  · intro id' price
    change 0 ≤ (if id' = _ then fun _ => 0 else r.consumed id') price
    split_ifs
    · exact le_rfl
    · exact hr id' price

theorem stable_consumed (cfg : Config) (V : OrderStatusReport → Prop)
    (G : Runtime → Matched → Prop) (events : List Event) :
    Stable Consumed (Move (Step cfg V G) events) := by
  intro r r' hmove hr
  cases hmove with
  | step step => exact step.consumed_nonneg hr
  | clock tick t due => exact hr
  | market now =>
    exact remember_consumed _ _ _ (remember_consumed _ _ _ (remember_consumed _ _ _
      (remember_consumed _ _ _ (remember_consumed _ _ _ hr))))

/-- The conditions of the operations, without any demand on the orders. -/
theorem ground_consumed (cfg : Config) (G : Runtime → Matched → Prop) :
    Ground cfg (fun _ _ => True) Consumed (Step cfg (fun _ => True) G) where
  acceptance _ := trivial
  modified _ _ _ _ := trivial
  triggered _ _ _ _ := trivial
  stored _ _ := trivial
  kept _ _ _ _ h := h
  consumed hr := hr
  stable _ _ hstep hr := hstep.consumed_nonneg hr
  plain := .plain

/-- The moves of a run, if nothing is asked of its orders. -/
abbrev AnyMove (setup : Setup) : Runtime → Runtime → Prop :=
  Move (AnyStep setup.cfg fun _ => True) setup.events

theorem anyMoves_result (setup : Setup) (c : Cache) (p : Portfolio) :
    ReflTransGen (AnyMove setup) (initial c p) (setup.result c p) :=
  moves_result ((ground_consumed setup.cfg _).closed setup.strategies setup.depth)
    (stable_consumed _ _ _ _) (fun _ _ _ _ h => h) Step.currentTime fun _ _ => le_rfl

/-- To follow what is remembered of the market along the trace, it is enough to
look at the entries of market data and of fills. -/
theorem stable_trace (setup : Setup) {T : Market → List Entry → Prop}
    (hidle : ∀ {market trace e}, Entry.IsIdle e → T market trace → T market (trace ++ [e]))
    (hfilled : ∀ {r : Runtime} {m}, Fits setup.cfg (fun _ => True) r m → T r.market r.trace →
      T r.market (r.trace ++ [.filled r.currentTime r.cache r.market m]))
    (hmarket : ∀ {r : Runtime} {event},
      (∃ e ∈ setup.events, e.time = r.currentTime ∧ e.message = .market event) →
      T r.market r.trace →
        T (r.withMarket event).market (r.trace ++ [.market r.currentTime event])) :
    Stable (fun r => T r.market r.trace) (AnyMove setup) := by
  intro r r' hmove hr
  cases hmove with
  | step step =>
    rw [step.market]
    cases step with
    | plain step =>
      obtain heq | ⟨e, heq, hplain⟩ := step.trace
      · rwa [heq]
      · rw [heq]
        exact hidle hplain hr
    | @filled m drawn fits guard =>
      have hnext := hfilled fits hr
      obtain heq | heq | heq := booked_trace r m drawn
      · rwa [heq]
      · rwa [heq]
      · rw [heq]
        exact hidle trivial hnext
  | clock tick t due => exact hidle trivial hr
  | @market event now =>
    obtain ⟨_, _, heq⟩ := rememberEvent_eq event r
    have htrace : (r.withMarket event).trace = r.trace ++ [.market r.currentTime event] := by
      rw [Runtime.withMarket, heq]
    rw [htrace]
    exact hmarket now hr

/-- What every move preserves holds after every run. -/
theorem of_result {I : Runtime → Prop} {setup : Setup} (hI : Stable I (AnyMove setup)) {c : Cache}
    {p : Portfolio} (hinit : I (initial c p)) : I (setup.result c p) :=
  hI.star (anyMoves_result setup c p) hinit

/-- Every fill of a run was a match that fits the state it was booked in. -/
theorem fits_of_filled (setup : Setup) (c : Cache) (p : Portfolio) {t : Time} {before : Cache}
    {market : Market} {m : Matched}
    (h : .filled t before market m ∈ (setup.result c p).trace) :
    ∃ r : Runtime, r.currentTime = t ∧ r.cache = before ∧ r.market = market ∧
      Fits setup.cfg (fun _ => True) r m := by
  revert t before market m
  refine of_result (I := fun r' => ∀ {t before market m},
    .filled t before market m ∈ r'.trace → ∃ r : Runtime, r.currentTime = t ∧
      r.cache = before ∧ r.market = market ∧ Fits setup.cfg (fun _ => True) r m) ?_ ?_
  · intro r r' hmove hr t before market m hmem
    obtain ⟨matched, hextends, hfill⟩ := hmove.extends
    rcases hextends.mem hmem with hold | hnew
    · exact hr hold
    · cases hnew
      exact ⟨r, rfl, rfl, rfl, (hfill m rfl).1⟩
  · intro t before market m hmem
    simp [initial] at hmem

end Runs

end Exchanges.Backtest
