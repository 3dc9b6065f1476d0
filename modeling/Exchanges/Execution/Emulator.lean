import Exchanges.Execution.Manager
import Exchanges.Model.Commands

/-!
The order emulator: orders that are held back until the market reaches them.

An order is held under its account and client order id, and a trailing stop has
in addition the most favorable price seen so far. A market event is tried on
every order that waits for its instrument, in the order of the keys. An order
that is triggered leaves the emulator there and then; what is done with it comes
after.
-/

namespace Exchanges.Execution

open Exchanges.Lib Exchanges.Model

set_option linter.unusedSectionVars false

/-! ### Prices -/

def bidAskTriggerPrice (order : SubmitOrder) (event : MarketEvent) : Option Decimal :=
  match event.quote, event.orderBook with
  | some quote, _ => some (if order.side = .buy then quote.askPrice else quote.bidPrice)
  | none, none => none
  | none, some book =>
    if order.side = .buy then book.asks.head?.map (·.price)
    else if order.side = .sell then book.bids.head?.map (·.price)
    else none

def emulationPrice (order : SubmitOrder) (event : MarketEvent) : Option Decimal :=
  match order.emulationTrigger with
  | .bidAsk => bidAskTriggerPrice order event
  | .lastPrice => event.trade.map (·.price)
  | .default => bidAskTriggerPrice order event
  | _ => none

/-- The favorable and the adverse price of an event, which are the same. -/
def trailingRange (order : SubmitOrder) (event : MarketEvent) : Option (Decimal × Decimal) :=
  match order.emulationTrigger with
  | .bidAsk => (bidAskTriggerPrice order event).map fun price => (price, price)
  | .lastPrice => event.trade.map fun trade => (trade.price, trade.price)
  | .default => (bidAskTriggerPrice order event).map fun price => (price, price)
  | _ => none

/-- The tick of an instrument, or else of a synthetic one. -/
def priceTick (c : Cache) (synthetics : OrdMap InstrumentID SyntheticInstrument)
    (id : InstrumentID) : Option Decimal :=
  (((c.instrument id).map (·.priceTick)).filter fun tick => decide (0 < tick)).or
    (((synthetics.get id).map (·.priceTick)).filter fun tick => decide (0 < tick))

/-! ### When an order is triggered -/

def emulatedLimitOrderMarketable (order : SubmitOrder) (event : MarketEvent) : Bool :=
  match emulationPrice order event with
  | none => false
  | some price =>
    if ¬ 0 < order.price ∨ ¬ 0 < price then false
    else if order.side = .buy then decide (price ≤ order.price)
    else if order.side = .sell then decide (order.price ≤ price)
    else false

def emulatedOrderTriggered (order : SubmitOrder) (event : MarketEvent) : Bool :=
  if order.type = .limit ∨ order.type = .marketToLimit then
    emulatedLimitOrderMarketable order event
  else match emulationPrice order event with
    | none => false
    | some price =>
      if ¬ 0 < price ∨ ¬ 0 < order.triggerPrice then false
      else if order.type = .marketIfTouched ∨ order.type = .limitIfTouched then
        if order.side = .buy then decide (price ≤ order.triggerPrice)
        else decide (order.triggerPrice ≤ price)
      else if order.side = .buy then decide (order.triggerPrice ≤ price)
      else decide (price ≤ order.triggerPrice)

/-- What an event makes of an order: the order with its new trigger price, whether it
is triggered, whether it changed, and the extreme that a trailing stop has reached. -/
structure Evaluation where
  order : SubmitOrder
  triggered : Bool := false
  updated : Bool := false
  extreme : Option Decimal := none

section Evaluation

variable [DecimalPackage]

def trailingOffsetPrice (tick : InstrumentID → Option Decimal) (order : SubmitOrder)
    (reference : Decimal) : Option Decimal :=
  match order.trailingOffsetType.canonical with
  | .price => some order.trailingOffset
  | .basisPoints => some (DecimalPackage.div (reference * order.trailingOffset) 10000)
  | .ticks => (tick order.triggerInstrument).map (order.trailingOffset * ·)
  | _ => none

/-- A trailing stop that has not reached its activation price. -/
def awaitsActivation (order : SubmitOrder) (favorable : Decimal) : Bool :=
  decide (0 < order.activationPrice ∧
    (order.side = .sell ∧ favorable < order.activationPrice ∨
      order.side = .buy ∧ order.activationPrice < favorable))

/-- The trigger price follows the extreme at the offset. -/
def trail (tick : InstrumentID → Option Decimal) (order : SubmitOrder)
    (favorable adverse extreme : Decimal) : Evaluation :=
  if order.side = .sell then
    let extreme := if extreme < favorable then favorable else extreme
    match trailingOffsetPrice tick order extreme with
    | none => { order := order, extreme := some extreme }
    | some offset =>
      { order := { order with triggerPrice := extreme - offset }
        triggered := decide (adverse ≤ extreme - offset)
        updated := decide (order.triggerPrice ≠ extreme - offset)
        extreme := some extreme }
  else if order.side = .buy then
    let extreme := if favorable < extreme then favorable else extreme
    match trailingOffsetPrice tick order extreme with
    | none => { order := order, extreme := some extreme }
    | some offset =>
      { order := { order with triggerPrice := extreme + offset }
        triggered := decide (extreme + offset ≤ adverse)
        updated := decide (order.triggerPrice ≠ extreme + offset)
        extreme := some extreme }
  else { order := order, extreme := some extreme }

def evaluateTrailingOrder (tick : InstrumentID → Option Decimal) (extreme : Option Decimal)
    (order : SubmitOrder) (event : MarketEvent) : Evaluation :=
  if ¬ 0 < order.trailingOffset then { order := order }
  else match trailingRange order event, extreme with
    | none, _ => { order := order }
    | some (favorable, adverse), some extreme => trail tick order favorable adverse extreme
    | some (favorable, adverse), none =>
      if awaitsActivation order favorable then { order := order }
      else trail tick order favorable adverse favorable

def evaluateOrder (tick : InstrumentID → Option Decimal) (extreme : Option Decimal)
    (order : SubmitOrder) (event : MarketEvent) : Evaluation :=
  if order.type.allowsTrailing then evaluateTrailingOrder tick extreme order event
  else { order := order, triggered := emulatedOrderTriggered order event }

end Evaluation

/-! ### Releases -/

/-- The order as the venue is given it. -/
def transformReleasedOrder (order : SubmitOrder) : SubmitOrder :=
  let order := { order with emulationTrigger := .noTrigger, triggerInstrumentID := {} }
  let untriggered := { order with
    triggerPrice := 0, activationPrice := 0, trailingOffset := 0, trailingOffsetType := .unset }
  match order.type with
  | .stopMarket => { untriggered with type := .market, price := 0 }
  | .marketIfTouched => { untriggered with type := .market, price := 0 }
  | .trailingStopMarket => { untriggered with type := .market, price := 0 }
  | .stopLimit => { untriggered with type := .limit }
  | .limitIfTouched => { untriggered with type := .limit }
  | .trailingStopLimit => { untriggered with type := .limit }
  | _ => order

def orderStatusReportFromSubmit (order : SubmitOrder) (status : OrderStatus) :
    OrderStatusReport where
  metadata := order.metadata
  accountID := order.accountID
  instrumentID := order.instrumentID
  triggerInstrumentID := order.triggerInstrumentID
  orderListID := order.orderListID
  parentClientOrderID := order.parentClientOrderID
  clientOrderID := order.clientOrderID
  orderID := "emulated-" ++ order.clientOrderID
  status := status
  side := order.side
  type := order.type
  contingency := order.contingency
  quantity := order.quantity
  leavesQuantity := order.quantity
  price := order.price
  triggerPrice := order.triggerPrice
  activationPrice := order.activationPrice
  trailingOffset := order.trailingOffset
  trailingOffsetType := order.trailingOffsetType
  postOnly := order.postOnly
  reduceOnly := order.reduceOnly
  timeInForce := order.timeInForce
  expireTime := order.expireTime

structure EmulatedRelease where
  order : SubmitOrder
  triggered : OrderStatusReport
  released : OrderStatusReport

def emulatedReleaseFromSubmit (order : SubmitOrder) : EmulatedRelease where
  order := transformReleasedOrder order
  triggered := orderStatusReportFromSubmit order .triggered
  released := orderStatusReportFromSubmit order .released

/-- The release of an order that was triggered. -/
def Evaluation.release (evaluation : Evaluation) : EmulatedRelease :=
  emulatedReleaseFromSubmit { evaluation.order with emulationTrigger := .noTrigger }

/-- `emulatedOrderKey`. -/
abbrev EmulatedKey := AccountID × ClientOrderID

def emulatedKey (order : SubmitOrder) : EmulatedKey := (order.accountID, order.clientOrderID)

theorem transformReleasedOrder_cases (order : SubmitOrder) :
    ∃ type price triggerPrice activationPrice trailingOffset trailingOffsetType,
      transformReleasedOrder order =
        { order with
          emulationTrigger := .noTrigger, triggerInstrumentID := {}, type := type, price := price
          triggerPrice := triggerPrice, activationPrice := activationPrice
          trailingOffset := trailingOffset, trailingOffsetType := trailingOffsetType } := by
  unfold transformReleasedOrder
  dsimp only
  split <;> exact ⟨_, _, _, _, _, _, rfl⟩

@[simp] theorem emulatedKey_transformReleasedOrder (order : SubmitOrder) :
    emulatedKey (transformReleasedOrder order) = emulatedKey order := by
  obtain ⟨_, _, _, _, _, _, heq⟩ := transformReleasedOrder_cases order
  rw [heq]
  rfl

/-- A released order is not emulated again. -/
theorem emulationTrigger_transformReleasedOrder (order : SubmitOrder) :
    (transformReleasedOrder order).emulationTrigger.isActive = false := by
  obtain ⟨_, _, _, _, _, _, heq⟩ := transformReleasedOrder_cases order
  rw [heq]
  rfl

/-! ### The emulator -/

theorem filed_empty : ∀ key order,
    (∅ : OrdMap EmulatedKey SubmitOrder).get key = some order → emulatedKey order = key := by
  intro key order h
  rw [OrdMap.get_empty] at h
  cases h

/-- `Emulator`: every order is held under its own key. -/
structure Emulator where
  orders : OrdMap EmulatedKey SubmitOrder := ∅
  trailing : OrdMap EmulatedKey Decimal := ∅
  filed : ∀ key order, orders.get key = some order → emulatedKey order = key := by
    exact filed_empty

namespace Emulator

def hold (em : Emulator) (order : SubmitOrder) : Emulator where
  orders := em.orders.put (emulatedKey order) order
  trailing := em.trailing
  filed key held h := by
    rw [OrdMap.get_put] at h
    split at h
    · next heq =>
        cases h
        exact heq.symm
    · exact em.filed key held h

/-- Forget an order and its extreme. -/
def drop (em : Emulator) (key : EmulatedKey) : Emulator where
  orders := em.orders.delete key
  trailing := em.trailing.delete key
  filed key' held h := by
    rw [OrdMap.get_delete] at h
    split at h
    · cases h
    · exact em.filed key' held h

/-- Keep the extreme of a trailing stop. -/
def mark (em : Emulator) (key : EmulatedKey) (extreme : Option Decimal) : Emulator :=
  { em with trailing := extreme.elim em.trailing (em.trailing.put key) }

/-- Forget the extreme of a trailing stop. -/
def unmark (em : Emulator) (key : EmulatedKey) : Emulator :=
  { em with trailing := em.trailing.delete key }

/-- The keys of the orders that wait for an instrument, in order. -/
def waiting (em : Emulator) (instrumentID : InstrumentID) : List EmulatedKey :=
  (em.orders.entries.filter fun entry =>
    decide (entry.2.triggerInstrument = instrumentID)).map (·.1)

end Emulator

theorem get_mark_self (em : Emulator) (key : EmulatedKey) (extreme : Option Decimal) :
    (em.mark key extreme).trailing.get key = extreme.or (em.trailing.get key) := by
  cases extreme with
  | none => rfl
  | some x => exact OrdMap.get_put_self _ _ _

section Sweep

variable [DecimalPackage] (tick : InstrumentID → Option Decimal) (event : MarketEvent)

def Emulator.evaluate (em : Emulator) (order : SubmitOrder) : Evaluation :=
  evaluateOrder tick (em.trailing.get (emulatedKey order)) order event

/-- The emulator in the middle of a market event, with the reports of the orders that
changed and the orders that were triggered. -/
structure Sweep where
  emulator : Emulator
  updates : List OrderStatusReport := []
  releases : List EmulatedRelease := []

/-- Try the event on the order under a key. -/
def Sweep.visit (s : Sweep) (key : EmulatedKey) : Sweep :=
  match s.emulator.orders.get key with
  | none => s
  | some order =>
    let evaluation := s.emulator.evaluate tick event order
    let emulator := s.emulator.mark key evaluation.extreme
    if evaluation.triggered then
      { s with
        emulator := emulator.drop key
        releases := s.releases ++ [evaluation.release] }
    else if evaluation.updated then
      { s with
        emulator := emulator.hold evaluation.order
        updates := s.updates ++ [orderStatusReportFromSubmit evaluation.order .emulated] }
    else { s with emulator := emulator }

/-- Try the event on every order that waits for its instrument. -/
def Emulator.sweep (em : Emulator) : Sweep :=
  (em.waiting event.instrumentID).foldl (Sweep.visit tick event) { emulator := em }

/-! ### What a market event does to the orders that are held -/

variable {tick event} {em : Emulator} {s : Sweep} {key : EmulatedKey} {order : SubmitOrder}

/-- An evaluation changes no more of an order than its trigger price. -/
theorem order_evaluateOrder (tick : InstrumentID → Option Decimal) (extreme : Option Decimal)
    (order : SubmitOrder) (event : MarketEvent) :
    ∃ triggerPrice, (evaluateOrder tick extreme order event).order =
      { order with triggerPrice := triggerPrice } := by
  have htrail (favorable adverse extreme : Decimal) : ∃ triggerPrice,
      (trail tick order favorable adverse extreme).order =
        { order with triggerPrice := triggerPrice } := by
    unfold trail
    dsimp only
    split
    · cases trailingOffsetPrice tick order (if extreme < favorable then favorable else extreme) <;>
        exact ⟨_, rfl⟩
    · split
      · cases trailingOffsetPrice tick order
          (if favorable < extreme then favorable else extreme) <;> exact ⟨_, rfl⟩
      · exact ⟨_, rfl⟩
  unfold evaluateOrder
  split
  · unfold evaluateTrailingOrder
    split
    · exact ⟨_, rfl⟩
    · split
      · exact ⟨_, rfl⟩
      · exact htrail _ _ _
      · split
        · exact ⟨_, rfl⟩
        · exact htrail _ _ _
  · exact ⟨_, rfl⟩

theorem evaluate_order (em : Emulator) (order : SubmitOrder) :
    ∃ triggerPrice, (em.evaluate tick event order).order =
      { order with triggerPrice := triggerPrice } :=
  order_evaluateOrder ..

@[simp] theorem emulatedKey_evaluate (em : Emulator) (order : SubmitOrder) :
    emulatedKey (em.evaluate tick event order).order = emulatedKey order := by
  obtain ⟨triggerPrice, heq⟩ := evaluate_order em order
  rw [heq]
  rfl

@[simp] theorem emulatedKey_release (em : Emulator) (order : SubmitOrder) :
    emulatedKey (em.evaluate tick event order).release.order = emulatedKey order := by
  have hrelease : emulatedKey (em.evaluate tick event order).release.order =
      emulatedKey (em.evaluate tick event order).order :=
    emulatedKey_transformReleasedOrder _
  rw [hrelease, emulatedKey_evaluate]

variable (tick event) in
/-- The release of the order under a key, if the event triggers it. -/
def Emulator.releaseAt (em : Emulator) (key : EmulatedKey) : Option EmulatedRelease :=
  (em.orders.get key).bind fun order =>
    if (em.evaluate tick event order).triggered then some (em.evaluate tick event order).release
    else none

/-- The two emulators have the same under a key. -/
def SameAt (em em' : Emulator) (key : EmulatedKey) : Prop :=
  em'.orders.get key = em.orders.get key ∧ em'.trailing.get key = em.trailing.get key

theorem releaseAt_congr {em em' : Emulator} (h : SameAt em em' key) :
    em'.releaseAt tick event key = em.releaseAt tick event key := by
  unfold Emulator.releaseAt
  rw [h.1]
  cases hget : em.orders.get key with
  | none => rfl
  | some order =>
    have hkey : emulatedKey order = key := em.filed key order hget
    simp only [Option.bind_some, Emulator.evaluate, hkey, h.2]

theorem get_mark_of_ne {key' : EmulatedKey} (extreme : Option Decimal) (h : key' ≠ key) :
    (em.mark key extreme).trailing.get key' = em.trailing.get key' := by
  cases extreme with
  | none => rfl
  | some x => exact OrdMap.get_put_of_ne _ h x

/-- A visit releases the order under its key or keeps it, and leaves the others
alone. -/
theorem visit_spec (s : Sweep) (key : EmulatedKey) :
    (s.visit tick event key).releases =
        s.releases ++ (s.emulator.releaseAt tick event key).toList ∧
      ((s.visit tick event key).emulator.orders.get key).isSome =
        ((s.emulator.orders.get key).isSome && (s.emulator.releaseAt tick event key).isNone) ∧
      ∀ key' ≠ key, SameAt s.emulator (s.visit tick event key).emulator key' := by
  cases hget : s.emulator.orders.get key with
  | none =>
    have hvisit : s.visit tick event key = s := by
      unfold Sweep.visit
      rw [hget]
    have hnone : s.emulator.releaseAt tick event key = none := by
      unfold Emulator.releaseAt
      rw [hget]
      rfl
    rw [hvisit, hnone, hget]
    exact ⟨(List.append_nil _).symm, rfl, fun key' _ => ⟨rfl, rfl⟩⟩
  | some order =>
    have hkey : emulatedKey order = key := s.emulator.filed key order hget
    have hat : s.emulator.releaseAt tick event key =
        if (s.emulator.evaluate tick event order).triggered then
          some (s.emulator.evaluate tick event order).release
        else none := by
      unfold Emulator.releaseAt
      rw [hget]
      rfl
    rw [hat]
    unfold Sweep.visit
    rw [hget]
    dsimp only
    split_ifs with htriggered hupdated
    · refine ⟨rfl, ?_, fun key' hne => ⟨OrdMap.get_delete_of_ne _ hne, ?_⟩⟩
      · change ((s.emulator.orders.delete key).get key).isSome = _
        rw [OrdMap.get_delete_self]
        rfl
      · change ((s.emulator.mark key _).trailing.delete key).get key' = _
        rw [OrdMap.get_delete_of_ne _ hne, get_mark_of_ne _ hne]
    · have horders : ((s.emulator.mark key (s.emulator.evaluate tick event order).extreme).hold
          (s.emulator.evaluate tick event order).order).orders =
          s.emulator.orders.put key (s.emulator.evaluate tick event order).order := by
        change s.emulator.orders.put (emulatedKey _) _ = _
        rw [emulatedKey_evaluate, hkey]
      refine ⟨(List.append_nil _).symm, ?_, fun key' hne => ⟨?_, get_mark_of_ne _ hne⟩⟩
      · rw [horders, OrdMap.get_put_self]
        rfl
      · rw [horders, OrdMap.get_put_of_ne _ hne]
    · refine ⟨(List.append_nil _).symm, ?_, fun key' hne => ⟨rfl, get_mark_of_ne _ hne⟩⟩
      change (s.emulator.orders.get key).isSome = _
      rw [hget]
      rfl

/-- After visiting some keys, the orders that the event triggers are released in turn,
and all others are still held. -/
theorem foldl_visit_spec (keys : List EmulatedKey) (hkeys : keys.Nodup) (s : Sweep) :
    (keys.foldl (Sweep.visit tick event) s).releases =
        s.releases ++ keys.filterMap (s.emulator.releaseAt tick event) ∧
      ∀ key, ((keys.foldl (Sweep.visit tick event) s).emulator.orders.get key).isSome =
        ((s.emulator.orders.get key).isSome &&
          !(decide (key ∈ keys) && (s.emulator.releaseAt tick event key).isSome)) := by
  induction keys generalizing s with
  | nil => exact ⟨(List.append_nil _).symm, fun key => by simp⟩
  | cons k keys ih =>
    obtain ⟨hk, hrest⟩ := List.nodup_cons.mp hkeys
    obtain ⟨hreleases, hheld, hothers⟩ := @visit_spec _ tick event s k
    obtain ⟨ihreleases, ihheld⟩ := ih hrest (s.visit tick event k)
    -- the keys still to come find the emulator as it was
    have hsame : ∀ key ∈ keys, (s.visit tick event k).emulator.releaseAt tick event key =
        s.emulator.releaseAt tick event key := fun key hkey =>
      releaseAt_congr (hothers key fun heq => hk (heq ▸ hkey))
    rw [List.foldl_cons]
    constructor
    · rw [ihreleases, hreleases, List.filterMap_congr hsame, List.append_assoc]
      cases hrelease : s.emulator.releaseAt tick event k with
      | none => rw [List.filterMap_cons_none hrelease]; rfl
      | some release => rw [List.filterMap_cons_some hrelease]; rfl
    · intro key
      rw [ihheld]
      by_cases heq : key = k
      · rw [heq, hheld, decide_eq_false hk, decide_eq_true List.mem_cons_self]
        cases s.emulator.releaseAt tick event k <;> simp
      · rw [(hothers key heq).1, releaseAt_congr (hothers key heq)]
        simp [heq]

theorem nodup_waiting (em : Emulator) (instrumentID : InstrumentID) :
    (em.waiting instrumentID).Nodup := by
  have hpairwise := em.orders.entries_pairwise.filter
    fun entry => decide (entry.2.triggerInstrument = instrumentID)
  rw [Emulator.waiting, List.Nodup, List.pairwise_map]
  refine hpairwise.imp fun hlt heq => ?_
  rw [heq] at hlt
  simp at hlt

theorem mem_waiting {instrumentID : InstrumentID} :
    key ∈ em.waiting instrumentID ↔
      ∃ order, em.orders.get key = some order ∧ order.triggerInstrument = instrumentID := by
  simp only [Emulator.waiting, List.mem_map, List.mem_filter, decide_eq_true_eq]
  constructor
  · rintro ⟨⟨k, order⟩, ⟨hmem, hinstrument⟩, rfl⟩
    exact ⟨order, OrdMap.mem_entries.mp hmem, hinstrument⟩
  · rintro ⟨order, hget, hinstrument⟩
    exact ⟨(key, order), ⟨OrdMap.mem_entries.mpr hget, hinstrument⟩, rfl⟩

variable (tick event) in
/-- The event meets the trigger condition of a held order. -/
def Emulator.Triggers (em : Emulator) (key : EmulatedKey) : Prop :=
  ∃ order, em.orders.get key = some order ∧ order.triggerInstrument = event.instrumentID ∧
    (em.evaluate tick event order).triggered = true

theorem triggers_iff : em.Triggers tick event key ↔
    key ∈ em.waiting event.instrumentID ∧ (em.releaseAt tick event key).isSome := by
  rw [mem_waiting]
  constructor
  · rintro ⟨order, hget, hinstrument, htriggered⟩
    refine ⟨⟨order, hget, hinstrument⟩, ?_⟩
    rw [Emulator.releaseAt, hget, Option.bind_some, if_pos htriggered]
    rfl
  · rintro ⟨⟨order, hget, hinstrument⟩, hsome⟩
    refine ⟨order, hget, hinstrument, ?_⟩
    rw [Emulator.releaseAt, hget, Option.bind_some] at hsome
    split_ifs at hsome with htriggered
    · exact htriggered
    · cases hsome

/-- The keys of the released orders are those that the event triggers, each once. -/
theorem releases_sweep (em : Emulator) :
    ((em.sweep tick event).releases.map fun r => emulatedKey r.order) =
      (em.waiting event.instrumentID).filter fun key =>
        (em.releaseAt tick event key).isSome := by
  rw [Emulator.sweep, (foldl_visit_spec _ (nodup_waiting em _) _).1, List.nil_append,
    List.map_filterMap, ← List.filterMap_eq_filter]
  refine List.filterMap_congr fun key _ => ?_
  cases hget : em.orders.get key with
  | none => simp [Emulator.releaseAt, Option.guard, hget]
  | some order =>
    have hkey : emulatedKey order = key := em.filed key order hget
    simp only [Emulator.releaseAt, Option.guard, hget, Option.bind_some]
    split_ifs <;> simp_all

theorem mem_releases_sweep :
    (∃ r ∈ (em.sweep tick event).releases, emulatedKey r.order = key) ↔
      em.Triggers tick event key := by
  have hmem : key ∈ ((em.sweep tick event).releases.map fun r => emulatedKey r.order) ↔
      em.Triggers tick event key := by
    rw [releases_sweep, List.mem_filter, triggers_iff]
  rw [← hmem, List.mem_map]

theorem release_of_mem_releases_sweep {r : EmulatedRelease}
    (h : r ∈ (em.sweep tick event).releases) :
    ∃ order, r = emulatedReleaseFromSubmit order := by
  rw [Emulator.sweep, (foldl_visit_spec _ (nodup_waiting em _) _).1, List.nil_append,
    List.mem_filterMap] at h
  obtain ⟨key, -, hat⟩ := h
  obtain ⟨order, -, hsome⟩ := Option.bind_eq_some_iff.mp hat
  split_ifs at hsome
  cases hsome
  exact ⟨_, rfl⟩

/-- A released order is submitted without its trigger. -/
theorem order_of_mem_releases_sweep {r : EmulatedRelease}
    (h : r ∈ (em.sweep tick event).releases) :
    ∃ order, r.order = transformReleasedOrder order := by
  obtain ⟨order, rfl⟩ := release_of_mem_releases_sweep h
  exact ⟨order, rfl⟩

theorem nodup_releases_sweep (em : Emulator) :
    ((em.sweep tick event).releases.map fun r => emulatedKey r.order).Nodup := by
  rw [releases_sweep]
  exact (nodup_waiting em _).filter _

/-- Visits to other keys leave an order alone. -/
theorem sameAt_foldl_visit {keys : List EmulatedKey} (hkey : key ∉ keys) (s : Sweep) :
    SameAt s.emulator (keys.foldl (Sweep.visit tick event) s).emulator key := by
  induction keys generalizing s with
  | nil => exact ⟨rfl, rfl⟩
  | cons k keys ih =>
    obtain ⟨hne, hrest⟩ := not_or.mp (List.mem_cons.not.mp hkey)
    obtain ⟨horders, htrailing⟩ := ih hrest (s.visit tick event k)
    obtain ⟨horders', htrailing'⟩ := (@visit_spec _ tick event s k).2.2 key hne
    exact ⟨horders.trans horders', htrailing.trans htrailing'⟩

theorem sameAt_sweep {held : SubmitOrder} (hget : em.orders.get key = some held)
    (hinstrument : held.triggerInstrument ≠ event.instrumentID) :
    SameAt em (em.sweep tick event).emulator key := by
  refine sameAt_foldl_visit (fun hmem => ?_) { emulator := em }
  obtain ⟨order, horder, heq⟩ := mem_waiting.mp hmem
  obtain rfl : order = held := Option.some.inj (horder.symm.trans hget)
  exact hinstrument heq

/-- An order that an event of its instrument does not trigger is held as it was
evaluated, with its extreme. -/
theorem at_sweep {held : SubmitOrder} (hget : em.orders.get key = some held)
    (hinstrument : held.triggerInstrument = event.instrumentID)
    (hnot : (em.evaluate tick event held).triggered = false) :
    (em.sweep tick event).emulator.orders.get key = some (if (em.evaluate tick event held).updated
        then (em.evaluate tick event held).order else held) ∧
      (em.sweep tick event).emulator.trailing.get key =
        ((em.evaluate tick event held).extreme).or (em.trailing.get key) := by
  obtain ⟨before, after, hsplit⟩ :=
    List.append_of_mem (mem_waiting.mpr ⟨held, hget, hinstrument⟩ : key ∈ em.waiting _)
  have hnodup := nodup_waiting em event.instrumentID
  rw [hsplit, List.nodup_append, List.nodup_cons] at hnodup
  obtain ⟨-, ⟨hafter, -⟩, hdisjoint⟩ := hnodup
  have hbefore : key ∉ before := fun hmem => hdisjoint key hmem key List.mem_cons_self rfl
  have hkey : emulatedKey held = key := em.filed key held hget
  rw [Emulator.sweep, hsplit, List.foldl_append, List.foldl_cons]
  generalize hs : before.foldl (Sweep.visit tick event) { emulator := em } = s
  have hsame : SameAt em s.emulator key := hs ▸ sameAt_foldl_visit hbefore { emulator := em }
  obtain ⟨horders, htrailing⟩ := @sameAt_foldl_visit _ tick event key _ hafter
    (s.visit tick event key)
  have heval : s.emulator.evaluate tick event held = em.evaluate tick event held := by
    unfold Emulator.evaluate
    rw [hkey, hsame.2]
  have hvisit : s.visit tick event key =
      if (em.evaluate tick event held).updated then
        { s with
          emulator := (s.emulator.mark key (em.evaluate tick event held).extreme).hold
            (em.evaluate tick event held).order
          updates := s.updates ++
            [orderStatusReportFromSubmit (em.evaluate tick event held).order .emulated] }
      else { s with emulator := s.emulator.mark key (em.evaluate tick event held).extreme } := by
    unfold Sweep.visit
    rw [hsame.1.trans hget]
    dsimp only
    rw [heval, hnot]
    rfl
  have hmark : (s.emulator.mark key (em.evaluate tick event held).extreme).trailing.get key =
      ((em.evaluate tick event held).extreme).or (em.trailing.get key) := by
    rw [get_mark_self, hsame.2]
  rw [horders, htrailing, hvisit]
  split
  · refine ⟨?_, hmark⟩
    have hself : emulatedKey (em.evaluate tick event held).order = key := by
      rw [emulatedKey_evaluate, hkey]
    rw [← hself]
    exact OrdMap.get_put_self _ _ _
  · exact ⟨hsame.1.trans hget, hmark⟩

/-- What is held after an event is what was held before and is not triggered. -/
theorem held_sweep : ((em.sweep tick event).emulator.orders.get key).isSome ↔
    (em.orders.get key).isSome ∧ ¬ em.Triggers tick event key := by
  rw [Emulator.sweep, (foldl_visit_spec _ (nodup_waiting em _) _).2, triggers_iff]
  simp [imp_iff_not_or]

end Sweep

end Exchanges.Execution
