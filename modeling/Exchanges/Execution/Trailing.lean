import Exchanges.Execution.ReleasedOrders
import Exchanges.Lib.Trailing

/-!
When an emulated trailing stop is released.

The emulator keeps the best price that a trailing stop has seen and lets its
trigger price follow at the offset. `Reached` says in terms of all prices that the
order has seen, without any state, whether the last one reaches the trigger.
`released_at_first` relates the two over the whole life of an order, from its
submission through market events and whatever is done to other orders. The
emulator keeps the best price under the client order id; an order that finds one
there does not start anew, and for that the equivalence fails.
-/

namespace Exchanges.Execution

open Exchanges.Lib Exchanges.Model

set_option linter.unusedSectionVars false

/-! ### The closed form -/

/-- A reference price, with the ticks of the instruments when it came. -/
abbrev Sample := Decimal × (InstrumentID → Option Decimal)

/-- The offset from a best price, in exact arithmetic. -/
def offsetFrom (order : SubmitOrder) (tick : InstrumentID → Option Decimal) (best : Decimal) :
    Option Decimal :=
  match order.trailingOffsetType.canonical with
  | .price => some order.trailingOffset
  | .basisPoints => some (best * order.trailingOffset / 10000)
  | .ticks => (tick order.triggerInstrument).map (order.trailingOffset * ·)
  | _ => none

/-- The prices from the first one at or beyond the activation price on. -/
def activated (order : SubmitOrder) (prices : List Decimal) : List Decimal :=
  prices.dropWhile fun price => decide (0 < order.activationPrice ∧
    (if order.side = .sell then price < order.activationPrice
      else order.activationPrice < price))

/-- The last price is beyond the best price since the activation by the offset. -/
def Reached (order : SubmitOrder) (samples : List Sample) : Prop :=
  ∃ price tick, samples.getLast? = some (price, tick) ∧
    if order.side = .sell then
      ∃ best offset, (activated order (samples.map Prod.fst)).max? = some best ∧
        offsetFrom order tick best = some offset ∧ price ≤ best - offset
    else
      ∃ best offset, (activated order (samples.map Prod.fst)).min? = some best ∧
        offsetFrom order tick best = some offset ∧ best + offset ≤ price

/-- The last sample is the first one that reaches the trigger. -/
def FirstReached (order : SubmitOrder) (samples : List Sample) : Prop :=
  Reached order samples ∧ ∀ before, before <+: samples → before ≠ samples → ¬ Reached order before

/-- The sample that an event is for an order, if it has a price. -/
def sample (order : SubmitOrder) (tick : InstrumentID → Option Decimal) (event : MarketEvent) :
    List Sample :=
  ((trailingRange order event).map fun range => (range.1, tick)).toList

/-- Events of other instruments are none. -/
def sampleAt (order : SubmitOrder) (tick : InstrumentID → Option Decimal) (event : MarketEvent) :
    List Sample :=
  if order.triggerInstrument = event.instrumentID then sample order tick event else []

/-! ### The life of a trailing stop -/

section Watched

variable [DecimalPackage]

/-- The emulator holds an order that was submitted to `start`, and the order has seen
these samples. It was not modified. -/
inductive Watched (start : Emulator) (order : SubmitOrder) : Emulator → List Sample → Prop
  | unseen (tick : InstrumentID → Option Decimal) :
      Watched start order (start.place tick none order).emulator []
  | submitted (tick : InstrumentID → Option Decimal) (event : MarketEvent) :
      (start.place tick (some event) order).answer.2 = none →
      Watched start order (start.place tick (some event) order).emulator (sample order tick event)
  | other {em em' samples} : Watched start order em samples →
      SameAt em em' (emulatedKey order) → Watched start order em' samples
  | event {em samples} (tick : InstrumentID → Option Decimal) (event : MarketEvent) :
      Watched start order em samples → ¬ em.Triggers tick event (emulatedKey order) →
      Watched start order (em.sweep tick event).emulator (samples ++ sampleAt order tick event)

end Watched

/-! ### One event -/

/-- How the extreme of an order follows the prices. -/
def trailingFor (side : OrderSide) (activationPrice : Decimal) : Trailing Decimal where
  awaits price := decide (0 < activationPrice ∧
    (side = .sell ∧ price < activationPrice ∨ side = .buy ∧ activationPrice < price))
  better := if side = .sell then max else min

def trailingOf (order : SubmitOrder) : Trailing Decimal :=
  trailingFor order.side order.activationPrice

/-- The trigger price that follows the best price at an offset, if the last price has
reached it. -/
def triggerReached (side : OrderSide) (offset : Decimal → Option Decimal) (price : Decimal)
    (extreme : Option Decimal) : Option Decimal :=
  extreme.bind fun best => (offset best).bind fun distance =>
    if side = .sell then
      if price ≤ best - distance then some (best - distance) else none
    else if best + distance ≤ price then some (best + distance)
    else none

/-- The price at which an order is triggered, if it is. -/
def Evaluation.reached (evaluation : Evaluation) : Option Decimal :=
  if evaluation.triggered then some evaluation.order.triggerPrice else none

theorem isSome_reached (evaluation : Evaluation) :
    evaluation.reached.isSome = evaluation.triggered := by
  unfold Evaluation.reached
  cases evaluation.triggered <;> rfl

theorem better_self (side : OrderSide) (activationPrice price : Decimal) :
    (trailingFor side activationPrice).better price price = price := by
  unfold trailingFor
  dsimp only
  split
  · exact max_self price
  · exact min_self price

/-- The two prices of a range are the same. -/
theorem trailingRange_eq (order : SubmitOrder) (event : MarketEvent) {range : Decimal × Decimal}
    (h : trailingRange order event = some range) : range.2 = range.1 := by
  unfold trailingRange at h
  split at h
  · obtain ⟨price, -, rfl⟩ := Option.map_eq_some_iff.mp h
    rfl
  · obtain ⟨trade, -, rfl⟩ := Option.map_eq_some_iff.mp h
    rfl
  · obtain ⟨price, -, rfl⟩ := Option.map_eq_some_iff.mp h
    rfl
  · cases h

theorem better_eq_of_sell {order : SubmitOrder} (h : order.side = .sell) (best price : Decimal) :
    (trailingOf order).better best price = if best < price then price else best := by
  unfold trailingOf trailingFor
  dsimp only
  rw [if_pos h]
  rcases lt_or_ge best price with hlt | hge
  · rw [if_pos hlt, max_eq_right hlt.le]
  · rw [if_neg (not_lt.mpr hge), max_eq_left hge]

theorem better_eq_of_buy {order : SubmitOrder} (h : order.side = .buy) (best price : Decimal) :
    (trailingOf order).better best price = if price < best then price else best := by
  have hside : order.side ≠ .sell := by rw [h]; decide
  unfold trailingOf trailingFor
  dsimp only
  rw [if_neg hside]
  rcases lt_or_ge price best with hlt | hge
  · rw [if_pos hlt, min_eq_right hlt.le]
  · rw [if_neg (not_lt.mpr hge), min_eq_left hge]

section Emulator

variable [DecimalPackage] {order held : SubmitOrder} {tick : InstrumentID → Option Decimal}
  {event : MarketEvent} {extreme : Option Decimal}

/-- The step of a trailing stop that is active. -/
theorem trail_spec (hside : order.side = .sell ∨ order.side = .buy) (price best : Decimal) :
    (trail tick order price price best).extreme = some ((trailingOf order).better best price) ∧
      (trail tick order price price best).reached = triggerReached order.side
        (trailingOffsetPrice tick order) price (some ((trailingOf order).better best price)) := by
  rcases hside with hsell | hbuy
  · unfold trail triggerReached Evaluation.reached
    simp only [if_pos hsell, ← better_eq_of_sell hsell, Option.bind_some]
    cases trailingOffsetPrice tick order ((trailingOf order).better best price) with
    | none => exact ⟨rfl, rfl⟩
    | some offset => simp
  · have hsell : order.side ≠ .sell := by rw [hbuy]; decide
    unfold trail triggerReached Evaluation.reached
    simp only [if_neg hsell, if_pos hbuy, ← better_eq_of_buy hbuy, Option.bind_some]
    cases trailingOffsetPrice tick order ((trailingOf order).better best price) with
    | none => exact ⟨rfl, rfl⟩
    | some offset => simp

/-- The step of a trailing stop: its extreme follows the price, and it is triggered
if the price has reached the trigger price that follows the extreme. -/
theorem evaluate_trailing (htype : order.type.allowsTrailing = true)
    (hpositive : 0 < order.trailingOffset) (hside : order.side = .sell ∨ order.side = .buy)
    {price : Decimal} (hrange : trailingRange order event = some (price, price)) :
    ((evaluateOrder tick extreme order event).extreme).or extreme =
        (trailingOf order).step extreme price ∧
      (evaluateOrder tick extreme order event).reached = triggerReached order.side
        (trailingOffsetPrice tick order) price ((trailingOf order).step extreme price) := by
  unfold evaluateOrder evaluateTrailingOrder
  rw [if_pos htype, if_neg (not_not.mpr hpositive), hrange]
  cases extreme with
  | some best =>
    obtain ⟨hextreme, hreached⟩ := @trail_spec _ order tick hside price best
    dsimp only [Trailing.step]
    rw [hextreme]
    exact ⟨rfl, hreached⟩
  | none =>
    have hself : (trailingOf order).better price price = price := better_self ..
    obtain ⟨hextreme, hreached⟩ := @trail_spec _ order tick hside price price
    rw [hself] at hextreme hreached
    have hawaits : (trailingOf order).awaits price = awaitsActivation order price := rfl
    dsimp only [Trailing.step]
    rw [hawaits]
    split
    · exact ⟨rfl, rfl⟩
    · rw [hextreme]
      exact ⟨rfl, hreached⟩

/-- An event without a price does nothing to a trailing stop. -/
theorem evaluate_unpriced (htype : order.type.allowsTrailing = true)
    (hrange : trailingRange order event = none) :
    evaluateOrder tick extreme order event = { order := order } := by
  unfold evaluateOrder evaluateTrailingOrder
  rw [if_pos htype, hrange]
  split <;> rfl

end Emulator

/-! ### All events -/

section Runs

variable {start em : Emulator} {order : SubmitOrder} {samples : List Sample}
  {tick : InstrumentID → Option Decimal} {event : MarketEvent}

theorem best_trailingOf (order : SubmitOrder) (prices : List Decimal) :
    (trailingOf order).best prices = if order.side = .sell then prices.max? else prices.min? := by
  cases prices with
  | nil => split <;> rfl
  | cons price prices =>
    unfold trailingOf trailingFor Trailing.best
    dsimp only
    split <;> rfl

theorem activated_eq (hside : order.side = .sell ∨ order.side = .buy) (prices : List Decimal) :
    activated order prices = prices.dropWhile (trailingOf order).awaits := by
  refine congrArg (fun p => prices.dropWhile p) (funext fun price => ?_)
  unfold trailingOf trailingFor
  rcases hside with hside | hside <;> simp [hside]

/-- The closed form in terms of the extreme that the emulator keeps. -/
theorem reached_concat (hside : order.side = .sell ∨ order.side = .buy) (samples : List Sample)
    (price : Decimal) (tick : InstrumentID → Option Decimal) :
    Reached order (samples ++ [(price, tick)]) ↔
      (triggerReached order.side (offsetFrom order tick) price ((trailingOf order).step
        ((trailingOf order).extreme (samples.map Prod.fst)) price)).isSome = true := by
  rw [← Trailing.extreme_concat, Trailing.extreme_eq, best_trailingOf, ← activated_eq hside]
  have hprices : (samples ++ [(price, tick)]).map Prod.fst = samples.map Prod.fst ++ [price] := by
    rw [List.map_append]
    rfl
  have hlast : Reached order (samples ++ [(price, tick)]) ↔
      if order.side = .sell then
        ∃ best offset, (activated order (samples.map Prod.fst ++ [price])).max? = some best ∧
          offsetFrom order tick best = some offset ∧ price ≤ best - offset
      else
        ∃ best offset, (activated order (samples.map Prod.fst ++ [price])).min? = some best ∧
          offsetFrom order tick best = some offset ∧ best + offset ≤ price := by
    unfold Reached
    rw [List.getLast?_concat, hprices]
    simp
  have hsome {x : Option Decimal} {f : Decimal → Option Decimal} {P : Decimal → Decimal → Prop}
      [∀ b d, Decidable (P b d)] {g : Decimal → Decimal → Decimal} :
      (∃ best offset, x = some best ∧ f best = some offset ∧ P best offset) ↔
        (x.bind fun best => (f best).bind fun distance =>
          if P best distance then some (g best distance) else none).isSome = true := by
    cases x with
    | none => simp
    | some best =>
      cases hf : f best with
      | none => simp [hf]
      | some distance => by_cases hP : P best distance <;> simp [hf, hP]
  rw [hlast]
  unfold triggerReached
  split
  · exact hsome
  · exact hsome

theorem not_reached_nil (order : SubmitOrder) : ¬ Reached order [] := by
  rintro ⟨price, tick, hlast, -⟩
  cases hlast

/-- The emulator holds the order with the extreme of the samples, none of which
reached the trigger. -/
structure Tracks (order : SubmitOrder) (em : Emulator) (samples : List Sample) : Prop where
  held : ∃ triggerPrice, em.orders.get (emulatedKey order) =
    some { order with triggerPrice := triggerPrice }
  extreme : em.trailing.get (emulatedKey order) =
    (trailingOf order).extreme (samples.map Prod.fst)
  unreached : ∀ before, before <+: samples → ¬ Reached order before

/-- A trailing stop with an offset, for one of the two sides. -/
structure IsTrailing (order : SubmitOrder) : Prop where
  type : order.type.allowsTrailing = true
  offset : 0 < order.trailingOffset
  side : order.side = .sell ∨ order.side = .buy

/-- A sample that does not reach the trigger is the last of samples that do not. -/
theorem unreached_append {added : List Sample} (hone : added.length ≤ 1)
    (h : ∀ before, before <+: samples → ¬ Reached order before)
    (hlast : ¬ Reached order (samples ++ added)) :
    ∀ before, before <+: samples ++ added → ¬ Reached order before := by
  match added, hone with
  | [], _ => simpa using h
  | [s], _ =>
    intro before hbefore
    rcases List.prefix_concat_iff.mp hbefore with rfl | hprefix
    · exact hlast
    · exact h before hprefix

theorem length_sample_le (order : SubmitOrder) (tick : InstrumentID → Option Decimal)
    (event : MarketEvent) : (sample order tick event).length ≤ 1 := by
  unfold sample
  cases trailingRange order event <;> simp

variable (tick event) in
/-- The evaluation of an order that is held, or about to be, in terms of samples. -/
theorem evaluate_sample (horder : IsTrailing order) (triggerPrice : Decimal)
    (hextreme : em.trailing.get (emulatedKey order) =
      (trailingOf order).extreme (samples.map Prod.fst))
    (hunreached : ¬ Reached order samples) :
    let evaluation := @Emulator.evaluate exactDecimals tick event em
      { order with triggerPrice := triggerPrice }
    (evaluation.triggered = true ↔ Reached order (samples ++ sample order tick event)) ∧
      (evaluation.extreme).or (em.trailing.get (emulatedKey order)) =
        (trailingOf order).extreme ((samples ++ sample order tick event).map Prod.fst) := by
  set held : SubmitOrder := { order with triggerPrice := triggerPrice } with hheld
  have hkey : emulatedKey held = emulatedKey order := rfl
  have hrange : trailingRange held event = trailingRange order event := rfl
  intro evaluation
  have heval : evaluation = @evaluateOrder exactDecimals tick
      (em.trailing.get (emulatedKey order)) held event := rfl
  cases hprice : trailingRange order event with
  | none =>
    have hsample : sample order tick event = [] := by rw [sample, hprice]; rfl
    rw [heval, @evaluate_unpriced exactDecimals held _ _ _ horder.type (hrange.trans hprice),
      hsample, List.append_nil]
    exact ⟨iff_of_false (by simp) hunreached, hextreme⟩
  | some range =>
    obtain ⟨price, adverse⟩ := range
    obtain rfl : adverse = price := trailingRange_eq order event hprice
    have hsample : sample order tick event = [(adverse, tick)] := by rw [sample, hprice]; rfl
    obtain ⟨hafter, hreached⟩ := @evaluate_trailing exactDecimals held tick event
      (em.trailing.get (emulatedKey order)) horder.type horder.offset horder.side _
      (hrange.trans hprice)
    rw [heval, hsample, reached_concat horder.side, ← isSome_reached, hreached, hafter, hextreme,
      List.map_append]
    exact ⟨Iff.rfl, (Trailing.extreme_concat ..).symm⟩

/-- While an order is held, an event releases it exactly if its sample reaches the
trigger. -/
theorem Tracks.triggers_iff (h : Tracks order em samples) (horder : IsTrailing order) :
    @Emulator.Triggers exactDecimals tick event em (emulatedKey order) ↔
      Reached order (samples ++ sampleAt order tick event) := by
  obtain ⟨triggerPrice, hget⟩ := h.held
  have hunreached := h.unreached samples List.prefix_rfl
  have hwaits : ∀ o, em.orders.get (emulatedKey order) = some o →
      o = { order with triggerPrice := triggerPrice } := fun o ho =>
    Option.some.inj (ho.symm.trans hget)
  unfold sampleAt
  split
  · next hinstrument =>
      obtain ⟨htriggered, -⟩ :=
        evaluate_sample tick event horder triggerPrice h.extreme hunreached
      rw [← htriggered]
      constructor
      · rintro ⟨o, ho, -, hreached⟩
        rwa [hwaits o ho] at hreached
      · intro hreached
        exact ⟨_, hget, hinstrument, hreached⟩
  · next hinstrument =>
      rw [List.append_nil]
      refine iff_of_false ?_ hunreached
      rintro ⟨o, ho, heq, -⟩
      rw [hwaits o ho] at heq
      exact hinstrument heq

/-- The step lemma: an order that an event does not release is tracked further. -/
theorem Tracks.sweep (h : Tracks order em samples) (horder : IsTrailing order)
    (hnot : ¬ @Emulator.Triggers exactDecimals tick event em (emulatedKey order)) :
    Tracks order (@Emulator.sweep exactDecimals tick event em).emulator
      (samples ++ sampleAt order tick event) := by
  have hlast := (h.triggers_iff horder).not.mp hnot
  obtain ⟨triggerPrice, hget⟩ := h.held
  have hunreached := h.unreached samples List.prefix_rfl
  by_cases hinstrument : order.triggerInstrument = event.instrumentID
  · have hsample : sampleAt order tick event = sample order tick event := if_pos hinstrument
    rw [hsample] at hlast ⊢
    obtain ⟨htriggered, hextreme⟩ :=
      evaluate_sample tick event horder triggerPrice h.extreme hunreached
    have hfalse : (@Emulator.evaluate exactDecimals tick event em
        { order with triggerPrice := triggerPrice }).triggered = false :=
      Bool.eq_false_iff.mpr fun htrue => hlast (htriggered.mp htrue)
    obtain ⟨horders, htrailing⟩ := @at_sweep exactDecimals tick event em _ _ hget hinstrument hfalse
    refine ⟨?_, htrailing.trans hextreme,
      unreached_append (length_sample_le order tick event) h.unreached hlast⟩
    obtain ⟨moved, hmoved⟩ := @evaluate_order exactDecimals tick event em
      { order with triggerPrice := triggerPrice }
    rw [horders]
    split
    · exact ⟨moved, congrArg some hmoved⟩
    · exact ⟨triggerPrice, rfl⟩
  · have hsample : sampleAt order tick event = [] := if_neg hinstrument
    rw [hsample, List.append_nil]
    obtain ⟨horders, htrailing⟩ := @sameAt_sweep exactDecimals tick event em _ _ hget hinstrument
    exact ⟨⟨triggerPrice, horders.trans hget⟩, htrailing.trans h.extreme, h.unreached⟩

section Submission

variable (hfree : start.trailing.get (emulatedKey order) = none) (horder : IsTrailing order)
include hfree horder

/-- A submission is evaluated on the cached event like on any other. -/
theorem place_released_iff :
    (@Emulator.place exactDecimals start tick (some event) order).answer.2.isSome = true ↔
      Reached order (sample order tick event) := by
  obtain ⟨htriggered, -⟩ :=
    evaluate_sample tick event horder order.triggerPrice hfree (not_reached_nil order)
  rw [List.nil_append] at htriggered
  rw [← htriggered]
  unfold Emulator.place
  dsimp only
  split
  · next h => exact iff_of_true rfl h
  · next h => exact iff_of_false (by simp) h

theorem tracks_unseen : Tracks order (@Emulator.place exactDecimals start tick none order).emulator
    [] :=
  ⟨⟨order.triggerPrice, OrdMap.get_put_self _ _ _⟩, hfree, fun before hbefore => by
    rw [List.prefix_nil.mp hbefore]
    exact not_reached_nil order⟩

theorem tracks_submitted
    (hheld : (@Emulator.place exactDecimals start tick (some event) order).answer.2 = none) :
    Tracks order (@Emulator.place exactDecimals start tick (some event) order).emulator
      (sample order tick event) := by
  obtain ⟨-, hextreme⟩ :=
    evaluate_sample tick event horder order.triggerPrice hfree (not_reached_nil order)
  have hlast : ¬ Reached order ([] ++ sample order tick event) := by
    rw [List.nil_append, ← place_released_iff hfree horder, hheld]
    nofun
  obtain ⟨-, triggerPrice, horders⟩ := @place_held exactDecimals start order tick (some event) hheld
  refine ⟨⟨triggerPrice, ?_⟩, ?_, ?_⟩
  · rw [horders]
    exact OrdMap.get_put_self _ _ _
  · rw [List.nil_append] at hextreme
    rw [← hextreme]
    unfold Emulator.place at hheld ⊢
    dsimp only at hheld ⊢
    split at hheld
    · cases hheld
    · next hnot =>
        rw [if_neg hnot]
        exact get_mark_self start (emulatedKey order) _
  · refine @unreached_append order [] _ (length_sample_le order tick event) ?_ hlast
    intro before hbefore
    rw [List.prefix_nil.mp hbefore]
    exact not_reached_nil order

/-- The run lemma. -/
theorem tracks_of_watched (h : @Watched exactDecimals start order em samples) :
    Tracks order em samples := by
  induction h with
  | unseen tick => exact tracks_unseen hfree horder
  | submitted tick event hheld => exact tracks_submitted hfree horder hheld
  | other _ hsame ih =>
    obtain ⟨triggerPrice, hget⟩ := ih.held
    exact ⟨⟨triggerPrice, hsame.1.trans hget⟩, hsame.2.trans ih.extreme, ih.unreached⟩
  | event tick event _ hnot ih => exact ih.sweep horder hnot

end Submission

/-- An order that finds no extreme under its client order id is released at the first
of its samples that is beyond the best one since its activation by the offset: on
its submission, or by a later event. -/
theorem released_at_first (horder : IsTrailing order)
    (hfree : start.trailing.get (emulatedKey order) = none) :
    (∀ tick event,
      (@Emulator.place exactDecimals start tick (some event) order).answer.2.isSome = true ↔
        FirstReached order (sample order tick event)) ∧
    ∀ em samples, @Watched exactDecimals start order em samples → ∀ tick event,
      (∃ r ∈ (@Emulator.sweep exactDecimals tick event em).releases,
        emulatedKey r.order = emulatedKey order) ↔
          FirstReached order (samples ++ sampleAt order tick event) := by
  have hfirst {samples added : List Sample} (hone : added.length ≤ 1)
      (h : ∀ before, before <+: samples → ¬ Reached order before) :
      Reached order (samples ++ added) ↔ FirstReached order (samples ++ added) := by
    refine ⟨fun hreached => ⟨hreached, fun before hbefore hne => ?_⟩, fun h => h.1⟩
    match added, hone with
    | [], _ => exact absurd (List.append_nil samples ▸ hreached) (h samples List.prefix_rfl)
    | [s], _ =>
      rcases List.prefix_concat_iff.mp hbefore with rfl | hprefix
      · exact absurd rfl hne
      · exact h before hprefix
  constructor
  · intro tick event
    rw [place_released_iff hfree horder]
    refine @hfirst [] _ (length_sample_le order tick event) fun before hbefore => ?_
    rw [List.prefix_nil.mp hbefore]
    exact not_reached_nil order
  · intro em samples hwatched tick event
    have htracks := tracks_of_watched hfree horder hwatched
    rw [@mem_releases_sweep exactDecimals, htracks.triggers_iff horder]
    refine hfirst ?_ htracks.unreached
    unfold sampleAt
    split
    · exact length_sample_le order tick event
    · exact Nat.zero_le 1

end Runs

/-! ### Two orders under one client order id -/

/-- Sell when the bid falls five below its maximum. -/
def fiveBelow (quantity : Decimal) : SubmitOrder :=
  { accountID := "acct", instrumentID := ⟨"BTC-USD", "VENUE"⟩, clientOrderID := "client"
    side := .sell, type := .trailingStopMarket, quantity := quantity, trailingOffset := 5
    trailingOffsetType := .price, emulationTrigger := .default }

def bidAt (price : Decimal) : MarketEvent :=
  { quote := some
      { instrumentID := ⟨"BTC-USD", "VENUE"⟩, bidPrice := price, bidSize := 1
        askPrice := price + 1, askSize := 1, timestamp := 1 } }

def noTicks : InstrumentID → Option Decimal := fun _ => none

theorem isTrailing_fiveBelow (quantity : Decimal) : IsTrailing (fiveBelow quantity) :=
  ⟨rfl, (by decide +kernel : (0 : Decimal) < 5), .inl rfl⟩

theorem released_at_first_fiveBelow :
    (∃ r ∈ (@Emulator.sweep exactDecimals noTicks (bidAt 110)
        (@Emulator.place exactDecimals {} noTicks none (fiveBelow 1)).emulator).releases,
      emulatedKey r.order = emulatedKey (fiveBelow 1)) ↔
        FirstReached (fiveBelow 1) ([] ++ sampleAt (fiveBelow 1) noTicks (bidAt 110)) :=
  (released_at_first (isTrailing_fiveBelow 1) rfl).2 _ _
    (@Watched.unseen exactDecimals _ _ noTicks) noTicks (bidAt 110)

/-- The emulator that has seen bids of 110 and 107 for the first order. -/
def afterFirst : Emulator :=
  let em := (@Emulator.place exactDecimals {} noTicks (some (bidAt 110)) (fiveBelow 1)).emulator
  (@Emulator.sweep exactDecimals noTicks (bidAt 107) em).emulator

/-- The same with a second order under the client order id of the first. -/
def afterSecond : Emulator :=
  (@Emulator.place exactDecimals afterFirst noTicks (some (bidAt 107)) (fiveBelow 2)).emulator

/-- A second order under the same client order id has seen 107 and is released at 104,
three below: it finds the maximum of the first order. -/
theorem second_released_early :
    @Watched exactDecimals afterFirst (fiveBelow 2) afterSecond [(107, noTicks)] ∧
      ((@Emulator.sweep exactDecimals noTicks (bidAt 104) afterSecond).releases.map
        fun r => (emulatedKey r.order, r.order.quantity)) = [(emulatedKey (fiveBelow 2), 2)] ∧
      ¬ Reached (fiveBelow 2) ([(107, noTicks)] ++ [(104, noTicks)]) := by
  refine ⟨@Watched.submitted exactDecimals _ _ noTicks (bidAt 107) (by decide +kernel),
    by decide +kernel, ?_⟩
  rw [reached_concat (.inl rfl)]
  decide +kernel

end Exchanges.Execution
