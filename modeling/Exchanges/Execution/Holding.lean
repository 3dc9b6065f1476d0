import Exchanges.Execution.Releases

/-!
What a submission does to the orders that the emulator holds.

The emulator files an order under its account and client order id before the cache
has recorded it, and it does not look whether the place is free. So a submission that
fails at the cache leaves the order behind, and one that finds another order of the
same client order id takes its place.
-/

namespace Exchanges.Execution

open Exchanges.Lib Exchanges.Model

set_option linter.unusedSectionVars false

section Holding

variable [DecimalPackage] {m : Manager} {em : Emulator} {e : Engine} {order : SubmitOrder}

/-- What a submission makes of the emulator, and the answer to it. -/
structure Placement where
  emulator : Emulator
  answer : OrderStatusReport × Option EmulatedRelease

/-- Place an order, given the last event of the market that it waits for. -/
def Emulator.place (em : Emulator) (tick : InstrumentID → Option Decimal)
    (latest : Option MarketEvent) (order : SubmitOrder) : Placement :=
  match latest with
  | none => ⟨em.hold order, orderStatusReportFromSubmit order .emulated, none⟩
  | some event =>
    let evaluation := em.evaluate tick event order
    if evaluation.triggered then
      ⟨em.unmark (emulatedKey order), evaluation.release.released, some evaluation.release⟩
    else
      ⟨(em.mark (emulatedKey order) evaluation.extreme).hold evaluation.order,
        if evaluation.updated then orderStatusReportFromSubmit evaluation.order .emulated
        else orderStatusReportFromSubmit order .emulated, none⟩

/-- The reports that follow. -/
def Placement.record (m : Manager) (placement : Placement) : Prog Cache Err Unit :=
  match placement.answer.2 with
  | none => applyOrderReport m placement.answer.1
  | some release => do
    applyOrderReport m release.triggered
    applyOrderReport m release.released

/-- The placement of an order as the engine's cache has the market. -/
def Engine.placement (e : Engine) (em : Emulator) (order : SubmitOrder) : Placement :=
  em.place e.tick (Engine.latestMarketEvent e.cache order) order

/-- The order passes the checks that come before anything is changed. -/
def Submittable (order : SubmitOrder) : Prop :=
  order.emulationTrigger.isActive = true ∧ order.validate = .ok ()

/-- The place of the order is taken already, and by the very same: the order as the
market has it now, with the extreme that it would get. An order that the market has
reached takes no place, but forgets the extreme that is kept there. -/
def Emulator.Repeats (em : Emulator) (tick : InstrumentID → Option Decimal)
    (latest : Option MarketEvent) (order : SubmitOrder) : Prop :=
  match latest with
  | none => em.orders.get (emulatedKey order) = some order
  | some event =>
    if (em.evaluate tick event order).triggered then
      em.trailing.get (emulatedKey order) = none
    else em.orders.get (emulatedKey order) = some (em.evaluate tick event order).order ∧
      ∀ extreme, (em.evaluate tick event order).extreme = some extreme →
        em.trailing.get (emulatedKey order) = some extreme

/-! ### The run of a submission -/

theorem run_emulatorSubmitOrder_rejected (m : Manager) (em : Emulator) (e : Engine)
    (h : ¬ Submittable order) :
    ∃ err, (Engine.emulatorSubmitOrder m em order).run e = (.error err, e) := by
  by_cases hactive : order.emulationTrigger.isActive = true
  · cases hvalid : order.validate with
    | ok => exact absurd ⟨hactive, hvalid⟩ h
    | error err =>
      refine ⟨err, ?_⟩
      rw [Engine.emulatorSubmitOrder, hvalid, hactive]
      rfl
  · rw [Bool.not_eq_true] at hactive
    refine ⟨invalidOrder "order has no emulation trigger", ?_⟩
    rw [Engine.emulatorSubmitOrder, hactive]
    rfl

/-- Recording reports and answering. -/
theorem run_onCache_pure {α : Type} (q : Prog Cache Err Unit) (answer : α) (e : Engine) :
    (do
      Engine.onCache q
      pure answer : Prog Engine Err α).run e =
      ((q.run e.cache).1.map fun _ => answer, { e with cache := (q.run e.cache).2 }) := by
  have hzoom : (Engine.onCache q).run e =
      ((q.run e.cache).1, { e with cache := (q.run e.cache).2 }) := rfl
  rw [Prog.run_bind, hzoom]
  cases (q.run e.cache).1 <;> rfl

theorem run_onCache_seq (p q : Prog Cache Err Unit) (e : Engine) :
    (do
      Engine.onCache p
      Engine.onCache q).run e = (Engine.onCache (do
        p
        q)).run e := by
  have hzoom : ∀ q : Prog Cache Err Unit, ∀ e, (Engine.onCache q).run e =
      ((q.run e.cache).1, { e with cache := (q.run e.cache).2 }) := fun _ _ => rfl
  rw [Prog.run_bind, hzoom, hzoom, Prog.run_bind]
  match p.run e.cache with
  | (.ok (), c) => rfl
  | (.error err, c) => rfl

theorem run_emulatorSubmitOrder (m : Manager) (em : Emulator) (e : Engine)
    (h : Submittable order) :
    ∃ submits, (Engine.emulatorSubmitOrder m em order).run e =
      ((((e.placement em order).record m).run e.cache).1.map
          fun _ => (e.placement em order).answer,
        { e with
          submits := submits, cache := (((e.placement em order).record m).run e.cache).2
          emulator := some (e.placement em order).emulator }) := by
  have hactive : reject (order.emulationTrigger.isActive = false)
      (invalidOrder "order has no emulation trigger") = .ok () := by
    rw [reject_eq_ok, h.1]
    simp
  refine ⟨e.submits.put order.clientOrderID order, ?_⟩
  -- the command is cached before the order is placed
  let cached : Engine := { e with submits := e.submits.put order.clientOrderID order }
  rw [Engine.emulatorSubmitOrder, Engine.cacheSubmitCommand, hactive, h.2]
  unfold Engine.placement Emulator.place Placement.record
  cases hlatest : Engine.latestMarketEvent e.cache order with
  | none =>
    change (match Engine.latestMarketEvent cached.cache order with
      | none => _
      | some event => _ : Prog Engine Err _).run cached = _
    rw [show Engine.latestMarketEvent cached.cache order = none from hlatest]
    exact run_onCache_pure _ _ { cached with emulator := some (em.hold order) }
  | some event =>
    change (match Engine.latestMarketEvent cached.cache order with
      | none => _
      | some event => _ : Prog Engine Err _).run cached = _
    rw [show Engine.latestMarketEvent cached.cache order = some event from hlatest]
    have htick : cached.tick = e.tick := rfl
    dsimp only
    rw [htick]
    split
    · let placed : Engine := { cached with emulator := some (em.unmark (emulatedKey order)) }
      change (Engine.applyRelease m _ >>= fun _ => pure _).run placed = _
      rw [Prog.run_bind, Engine.applyRelease, Engine.applyReport, Engine.applyReport,
        run_onCache_seq]
      exact run_onCache_pure _ _ placed
    · exact run_onCache_pure _ _ { cached with emulator := some _ }

/-! ### When the other orders stay as they are -/

/-- A submission that fails changes no order that is held and no extreme. One that
succeeds keeps or releases the order, and every order that was held before stays
held, with its own extreme. -/
def KeepsOthers (m : Manager) (e : Engine) (em : Emulator) (order : SubmitOrder) : Prop :=
  match (Engine.emulatorSubmitOrder m em order).run { e with emulator := some em } with
  | (.error _, e') => e'.emulator = some em
  | (.ok answer, e') => ∃ em', e'.emulator = some em' ∧
      ((∃ held triggerPrice, em'.orders.get (emulatedKey order) = some held ∧
          held = { order with triggerPrice := triggerPrice }) ∨
        ∃ release triggerPrice, answer.2 = some release ∧
          release = emulatedReleaseFromSubmit
            { order with triggerPrice := triggerPrice, emulationTrigger := .noTrigger }) ∧
      ∀ key held, em.orders.get key = some held → SameAt em em' key

theorem KeepsOthers.sameAt {answer : OrderStatusReport × Option EmulatedRelease} {e' : Engine}
    (h : KeepsOthers m e em order)
    (hrun : (Engine.emulatorSubmitOrder m em order).run { e with emulator := some em } =
      (.ok answer, e')) {key : EmulatedKey} {held : SubmitOrder}
    (hget : em.orders.get key = some held) : ∃ em', e'.emulator = some em' ∧ SameAt em em' key := by
  rw [KeepsOthers, hrun] at h
  obtain ⟨em', hem', -, hall⟩ := h
  exact ⟨em', hem', hall key held hget⟩

/-- The order is refused before anything is changed; or its place is free and its
reports are recorded; or the emulator has it already. -/
def Undisturbing (m : Manager) (e : Engine) (em : Emulator) (order : SubmitOrder) : Prop :=
  ¬ Submittable order ∨
    em.orders.get (emulatedKey order) = none ∧
      (((e.placement em order).record m).run e.cache).1 = .ok () ∨
    em.Repeats e.tick (Engine.latestMarketEvent e.cache order) order

theorem eq_of_sameAt {em' : Emulator} (h : ∀ key, SameAt em em' key) : em' = em := by
  obtain ⟨orders, trailing, filed⟩ := em
  obtain ⟨orders', trailing', filed'⟩ := em'
  obtain rfl : orders' = orders := OrdMap.ext_get fun key => (h key).1
  obtain rfl : trailing' = trailing := OrdMap.ext_get fun key => (h key).2
  rfl

section Place

variable {tick : InstrumentID → Option Decimal} {latest : Option MarketEvent}

/-- A placement touches its own key only. -/
theorem sameAt_place {key : EmulatedKey} (hne : key ≠ emulatedKey order) :
    SameAt em (em.place tick latest order).emulator key := by
  unfold Emulator.place
  cases latest with
  | none => exact ⟨OrdMap.get_put_of_ne _ hne _, rfl⟩
  | some event =>
    dsimp only
    split
    · exact ⟨rfl, OrdMap.get_delete_of_ne _ hne⟩
    · have hkey : emulatedKey (em.evaluate tick event order).order = emulatedKey order :=
        emulatedKey_evaluate em order
      exact ⟨OrdMap.get_put_of_ne _ (hkey ▸ hne) _, get_mark_of_ne _ hne⟩

/-- The order as the market has it is held under the key of the order. -/
theorem get_hold_evaluate (event : MarketEvent) (extreme : Option Decimal) :
    ((em.mark (emulatedKey order) extreme).hold (em.evaluate tick event order).order).orders.get
      (emulatedKey order) = some (em.evaluate tick event order).order := by
  have hkey : emulatedKey (em.evaluate tick event order).order = emulatedKey order :=
    emulatedKey_evaluate em order
  rw [← hkey]
  exact OrdMap.get_put_self _ _ _

/-- At its own key a placement changes nothing exactly if it finds what it brings. -/
theorem sameAt_place_self : SameAt em (em.place tick latest order).emulator (emulatedKey order) ↔
    em.Repeats tick latest order := by
  unfold Emulator.place Emulator.Repeats
  cases latest with
  | none =>
    have horders : (em.hold order).orders.get (emulatedKey order) = some order :=
      OrdMap.get_put_self _ _ _
    dsimp only [SameAt]
    rw [horders]
    exact (and_iff_left rfl).trans eq_comm
  | some event =>
    dsimp only [SameAt]
    split
    · have htrailing : (em.unmark (emulatedKey order)).trailing.get (emulatedKey order) = none :=
        OrdMap.get_delete_self _ _
      rw [htrailing]
      exact (and_iff_right rfl).trans eq_comm
    · rw [get_hold_evaluate]
      refine and_congr eq_comm ?_
      cases (em.evaluate tick event order).extreme with
      | none => exact iff_of_true rfl (by simp)
      | some extreme =>
        have htrailing : (em.mark (emulatedKey order) (some extreme)).trailing.get
            (emulatedKey order) = some extreme := OrdMap.get_put_self _ _ _
        change (em.mark (emulatedKey order) (some extreme)).trailing.get _ = _ ↔ _
        rw [htrailing, eq_comm]
        simp

theorem place_eq_self_iff : (em.place tick latest order).emulator = em ↔
    em.Repeats tick latest order := by
  rw [← sameAt_place_self]
  constructor
  · intro heq
    rw [heq]
    exact ⟨rfl, rfl⟩
  · intro hself
    refine eq_of_sameAt fun key => ?_
    by_cases hkey : key = emulatedKey order
    · exact hkey ▸ hself
    · exact sameAt_place hkey

/-- The orders that were held stay as they are if the place was free, or if nothing
changes at all. -/
theorem sameAt_place_held_iff : (∀ key held, em.orders.get key = some held →
      SameAt em (em.place tick latest order).emulator key) ↔
    em.orders.get (emulatedKey order) = none ∨ em.Repeats tick latest order := by
  constructor
  · intro hall
    cases hget : em.orders.get (emulatedKey order) with
    | none => exact .inl rfl
    | some held => exact .inr (sameAt_place_self.mp (hall _ held hget))
  · rintro hfree key held hget
    by_cases hkey : key = emulatedKey order
    · subst hkey
      rcases hfree with hnone | hrepeats
      · cases hnone.symm.trans hget
      · exact sameAt_place_self.mpr hrepeats
    · exact sameAt_place hkey

/-- A placed order is held, or else released. -/
theorem held_or_released : (∃ held triggerPrice,
      (em.place tick latest order).emulator.orders.get (emulatedKey order) = some held ∧
        held = { order with triggerPrice := triggerPrice }) ∨
    ∃ release triggerPrice, (em.place tick latest order).answer.2 = some release ∧
      release = emulatedReleaseFromSubmit
        { order with triggerPrice := triggerPrice, emulationTrigger := .noTrigger } := by
  unfold Emulator.place
  cases latest with
  | none => exact .inl ⟨order, order.triggerPrice, OrdMap.get_put_self _ _ _, rfl⟩
  | some event =>
    obtain ⟨triggerPrice, horder⟩ : ∃ triggerPrice, (em.evaluate tick event order).order =
        { order with triggerPrice := triggerPrice } := evaluate_order em order
    dsimp only
    split
    · refine .inr ⟨_, triggerPrice, rfl, ?_⟩
      rw [Evaluation.release, horder]
    · exact .inl ⟨_, triggerPrice, get_hold_evaluate _ _, horder⟩

/-- Without a release the order is held, as it is or with another trigger price, and is
reported as emulated. -/
theorem place_held (hheld : (em.place tick latest order).answer.2 = none) :
    (em.place tick latest order).answer.1.status = .emulated ∧
      ∃ triggerPrice, (em.place tick latest order).emulator.orders =
        em.orders.put (emulatedKey order) { order with triggerPrice := triggerPrice } := by
  unfold Emulator.place at hheld ⊢
  cases latest with
  | none => exact ⟨rfl, order.triggerPrice, rfl⟩
  | some event =>
    dsimp only at hheld ⊢
    split at hheld
    · cases hheld
    · next hnot =>
        obtain ⟨triggerPrice, horder⟩ := @evaluate_order _ tick event em order
        rw [if_neg hnot]
        refine ⟨?_, triggerPrice, ?_⟩
        · dsimp only
          split <;> rfl
        · change em.orders.put (emulatedKey (em.evaluate tick event order).order) _ = _
          rw [emulatedKey_evaluate, horder]

end Place

/-- A submission leaves the orders that are held as it found them if and only if it
is refused at once, finds its place free and is recorded, or brings nothing new. -/
theorem keeps_others_iff (m : Manager) (e : Engine) (em : Emulator) (order : SubmitOrder) :
    KeepsOthers m e em order ↔ Undisturbing m e em order := by
  unfold KeepsOthers Undisturbing
  by_cases hsubmittable : Submittable order
  · obtain ⟨submits, hrun⟩ :=
      run_emulatorSubmitOrder m em { e with emulator := some em } hsubmittable
    have hplacement : ({ e with emulator := some em } : Engine).placement em order =
        e.placement em order := rfl
    rw [hrun, hplacement, or_iff_right (not_not.mpr hsubmittable)]
    cases hrecord : (((e.placement em order).record m).run e.cache).1 with
    | error err =>
      have hsame : some (e.placement em order).emulator = some em ↔
          em.Repeats e.tick (Engine.latestMarketEvent e.cache order) order :=
        (Option.some_inj).trans place_eq_self_iff
      exact hsame.trans (or_iff_right fun h => by cases h.2).symm
    | ok u =>
      have hfree : em.orders.get (emulatedKey order) = none ∧
            (Except.ok u : Except Err Unit) = .ok () ↔
          em.orders.get (emulatedKey order) = none := and_iff_left rfl
      rw [hfree, ← sameAt_place_held_iff]
      constructor
      · rintro ⟨em', hem', -, hall⟩
        cases hem'
        exact hall
      · intro hall
        exact ⟨_, rfl, held_or_released, hall⟩
  · obtain ⟨err, hrun⟩ :=
      run_emulatorSubmitOrder_rejected m em { e with emulator := some em } hsubmittable
    rw [hrun]
    exact iff_of_true rfl (.inl hsubmittable)

end Holding

/-! ### Two stops of one client order id -/

/-- A stop that was sent without a client order id, and waits for the price 100. -/
def heldStop : Emulator := ({} : Emulator).hold (stopOrder "")

def secondStop : SubmitOrder := { stopOrder "" with triggerPrice := 200 }

def afterSecondStop : Except Err (OrderStatusReport × Option EmulatedRelease) × Engine :=
  (@Engine.emulatorSubmitOrder exactDecimals {} heldStop secondStop).run
    { emulator := some heldStop }

/-- The second stop takes the place of the first, which is then held no more. -/
theorem held_stop_replaced : afterSecondStop.1.isOk = true ∧
    (afterSecondStop.2.emulator.bind fun em => em.orders.get ("acct", "")) = some secondStop ∧
    ¬ @KeepsOthers exactDecimals {} {} heldStop secondStop := by
  have hok : afterSecondStop.1.isOk = true := by decide +kernel
  have hheld : (afterSecondStop.2.emulator.bind fun em => em.orders.get ("acct", "")) =
      some secondStop := by decide +kernel
  refine ⟨hok, hheld, fun hkeeps => ?_⟩
  match hafter : afterSecondStop with
  | (.error err, e') =>
    rw [hafter] at hok
    cases hok
  | (.ok answer, e') =>
    have hfirst : heldStop.orders.get ("acct", "") = some (stopOrder "") := by decide +kernel
    obtain ⟨em', hem', hsame⟩ := @KeepsOthers.sameAt exactDecimals _ _ _ _ _ _ hkeeps hafter _ _
      hfirst
    rw [hafter, hem', Option.bind_some, hsame.1, hfirst] at hheld
    exact absurd hheld (by decide)

end Exchanges.Execution
