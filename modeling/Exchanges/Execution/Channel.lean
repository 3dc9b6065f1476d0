import Exchanges.Execution.Releases
import Exchanges.Execution.Reports

/-!
The engine's own channel while a market event is processed.

The engine tells of every released order twice, on a channel that the node reads after
the call has returned. The channel holds 256 events. A send on a full channel waits
for a reader, and there is none: the call then never returns. The programs of the
engine have no such bound. Here they get one, and a call that does not block is shown
to be the call without the bound.
-/

namespace Exchanges.Execution

open Exchanges.Lib Exchanges.Model Exchanges.Cache

set_option linter.unusedSectionVars false

/-- The capacity of `Engine.events`. -/
def eventCapacity : Nat := 256

/-- Why a call returns no value: an error, or a send that nobody takes up. -/
inductive Stop where
  | error (err : Err)
  | blocked
  deriving DecidableEq

/-- `publishOrderLifecycle` on the channel as it is. -/
def Engine.sendOrderLifecycle (report : OrderStatusReport) (kind : OrderEventKind)
    (previous : OrderStatus) : Prog Engine Stop Unit := do
  let e ← Prog.get
  if e.events.length < eventCapacity then
    (Engine.publishOrderLifecycle report kind previous).mapError .error
  else Prog.fail .blocked

namespace Host

variable [DecimalPackage] {σ : Type} (host : Host σ) (m : Manager)

def sendFromEngine {α : Type} (q : Prog Engine Stop α) : Prog σ Stop α :=
  q.zoom host.engine host.setEngine

/-- One pass of the loop of `ProcessMarketEvent`. -/
def sendRelease (release : EmulatedRelease) : Prog σ Stop OrderStatusReport := do
  host.sendFromEngine (Engine.sendOrderLifecycle release.triggered .triggered .emulated)
  host.sendFromEngine (Engine.sendOrderLifecycle release.released .released .triggered)
  (host.submitOrder m release.order).mapError .error

def sendReleases : List EmulatedRelease → Prog σ Stop (List OrderStatusReport)
  | [] => pure []
  | release :: releases => do
    let report ← host.sendRelease m release
    let reports ← sendReleases releases
    pure (report :: reports)

/-- `ProcessMarketEvent` on the channel as it is. -/
def sendMarketEvent (event : MarketEvent) : Prog σ Stop (List OrderStatusReport) := do
  let s ← Prog.get
  match (host.engine s).emulator with
  | none => do
    Prog.lift (event.validate.mapError .error)
    pure []
  | some em => do
    let releases ← (host.onEngine (Engine.emulatorProcessMarketEvent m em event)).mapError .error
    host.sendReleases m releases

end Host

section Capacity

variable [DecimalPackage] {v : Venue} {m : Manager} {w : World}

/-- The world after the engine has told of a release. -/
def World.told (w : World) (release : EmulatedRelease) : World :=
  { w with engine := { w.engine with events := w.engine.events ++
    [{ lifecycle := some (orderLifecycleFromReport release.triggered .triggered .emulated "") }] ++
    [{ lifecycle := some (orderLifecycleFromReport release.released .released .triggered "") }] } }

variable (v m) in
/-- How many of the released orders the engine tells of: all up to the first one whose
submission fails. -/
def Venue.attempts (w : World) : List EmulatedRelease → Nat
  | [] => 0
  | release :: releases =>
    match (v.host.submitOrder m release.order).run (w.told release) with
    | (.ok _, w') => Venue.attempts w' releases + 1
    | (.error _, _) => 1

/-- The channel has room for what is told of so many orders. -/
def RoomFor (pending orders : Nat) : Prop := orders = 0 ∨ pending + 2 * orders ≤ eventCapacity

/-! ### One release -/

theorem run_send_ok (report : OrderStatusReport) (kind : OrderEventKind) (previous : OrderStatus)
    (h : w.engine.events.length < eventCapacity) :
    (v.host.sendFromEngine (Engine.sendOrderLifecycle report kind previous)).run w =
      (.ok (), { w with engine := { w.engine with events := w.engine.events ++
        [{ lifecycle := some (orderLifecycleFromReport report kind previous "") }] } }) := by
  refine Prog.run_zoom ?_
  change ((if w.engine.events.length < eventCapacity then _ else _) : Prog Engine Stop Unit).run
    w.engine = _
  rw [if_pos h]
  rfl

theorem run_send_blocked (report : OrderStatusReport) (kind : OrderEventKind)
    (previous : OrderStatus) (h : eventCapacity ≤ w.engine.events.length) :
    (v.host.sendFromEngine (Engine.sendOrderLifecycle report kind previous)).run w =
      (.error .blocked, w) := by
  have hfail : (Engine.sendOrderLifecycle report kind previous).run w.engine =
      (.error .blocked, w.engine) := by
    change ((if w.engine.events.length < eventCapacity then _ else _) : Prog Engine Stop Unit).run
      w.engine = _
    rw [if_neg (not_lt.mpr h)]
    rfl
  exact Prog.run_zoom hfail

/-- With room for two events a release is told of and submitted. -/
theorem run_sendRelease_ok (release : EmulatedRelease)
    (h : w.engine.events.length + 2 ≤ eventCapacity) :
    (v.host.sendRelease m release).run w =
      ((v.host.submitOrder m release.order).mapError .error).run (w.told release) := by
  have hfirst := run_send_ok (v := v) release.triggered .triggered .emulated
    (show w.engine.events.length < eventCapacity by omega)
  rw [Host.sendRelease, Prog.run_bind_ok hfirst]
  refine Prog.run_bind_ok (run_send_ok _ _ _ ?_)
  rw [List.length_append]
  exact h

/-- Without it the call blocks. -/
theorem run_sendRelease_blocked (release : EmulatedRelease)
    (h : eventCapacity < w.engine.events.length + 2) :
    ∃ w', (v.host.sendRelease m release).run w = (.error .blocked, w') := by
  rw [Host.sendRelease]
  by_cases hfirst : w.engine.events.length < eventCapacity
  · rw [Prog.run_bind_ok (run_send_ok _ _ _ hfirst)]
    refine ⟨_, Prog.run_bind_error (run_send_blocked _ _ _ ?_)⟩
    rw [List.length_append]
    exact Nat.le_of_lt_succ h
  · exact ⟨_, Prog.run_bind_error (run_send_blocked _ _ _ (not_lt.mp hfirst))⟩

/-- Submitting a released order tells nobody anything. -/
theorem keeps_events_submitUnemulated (order : SubmitOrder) (events : List ExecutionEvent) :
    Prog.Keeps (fun w : World => w.engine.events = events) (v.host.submitUnemulated m order) := by
  have hcall (request : Request) :
      Prog.Keeps (fun w : World => w.engine.events = events) (v.host.call request) :=
    fun _ h => h
  have hreport (report : OrderStatusReport) : Prog.Keeps
      (fun w : World => w.engine.events = events) (v.host.onEngine (Engine.applyReport m report)) :=
    fun _ h => h
  unfold Host.submitUnemulated
  split
  · exact (Prog.Keeps.lift _).bind fun _ => (hcall _).bind fun report =>
      (hreport report).bind fun _ => .pure _
  · refine Prog.Keeps.bind ?_ fun _ => (Prog.Keeps.lift _).bind fun _ => (hcall _).bind
      fun report => (hreport report).bind fun _ => .pure _
    have hengine : Prog.Keeps (fun e : Engine => e.events = events)
        (Engine.cacheSubmitCommand order) :=
      (Prog.Keeps.lift _).bind fun _ => .modify fun _ h => h
    exact Prog.Keeps.zoom (fun _ _ => rfl) hengine

theorem events_submitOrder {release : EmulatedRelease} {w' : World}
    {result : Except Err OrderStatusReport}
    (h : ∃ order, release.order = transformReleasedOrder order)
    (hrun : (v.host.submitOrder m release.order).run (w.told release) = (result, w')) :
    w'.engine.events.length = w.engine.events.length + 2 := by
  obtain ⟨order, horder⟩ := h
  rw [horder, Host.submitOrder_transformReleasedOrder] at hrun
  have hkept := (keeps_events_submitUnemulated _ _).of_run hrun rfl
  rw [hkept]
  simp [World.told]

/-! ### All releases -/

theorem run_submitReleases_cons (release : EmulatedRelease) (releases : List EmulatedRelease)
    (w : World) :
    (v.host.submitReleases m (release :: releases)).run w = (do
      let report ← v.host.submitOrder m release.order
      let reports ← v.host.submitReleases m releases
      pure (report :: reports) : Prog World Err (List OrderStatusReport)).run (w.told release) := rfl

theorem run_mapError {α : Type} (p : Prog World Err α) (w : World) :
    (p.mapError Stop.error).run w = ((p.run w).1.mapError .error, (p.run w).2) := rfl

/-- With room for all that is told, the loop does what it does on a channel without a
bound, and otherwise it blocks. -/
theorem run_sendReleases (releases : List EmulatedRelease)
    (hreleased : ∀ r ∈ releases, ∃ order, r.order = transformReleasedOrder order) (w : World) :
    (RoomFor w.engine.events.length (v.attempts m w releases) →
      (v.host.sendReleases m releases).run w =
        ((v.host.submitReleases m releases).mapError .error).run w) ∧
    (¬ RoomFor w.engine.events.length (v.attempts m w releases) →
      ∃ w', (v.host.sendReleases m releases).run w = (.error .blocked, w')) := by
  induction releases generalizing w with
  | nil => exact ⟨fun _ => rfl, fun h => absurd (.inl rfl) h⟩
  | cons r releases ih =>
    obtain ⟨hr, hrest⟩ := List.forall_mem_cons.mp hreleased
    rw [Host.sendReleases, Venue.attempts, run_mapError, run_submitReleases_cons]
    by_cases hroom : w.engine.events.length + 2 ≤ eventCapacity
    · have hsend := run_sendRelease_ok (v := v) (m := m) r hroom
      match hsubmit : (v.host.submitOrder m r.order).run (w.told r) with
      | (.error err, w₁) =>
        have herror : (v.host.sendRelease m r).run w = (.error (.error err), w₁) := by
          rw [hsend, run_mapError, hsubmit]
          rfl
        rw [Prog.run_bind_error hsubmit, Prog.run_bind_error herror]
        exact ⟨fun _ => rfl, fun h => absurd (.inr hroom) h⟩
      | (.ok report, w₁) =>
        have hok : (v.host.sendRelease m r).run w = (.ok report, w₁) := by
          rw [hsend, run_mapError, hsubmit]
          rfl
        have hevents := events_submitOrder hr hsubmit
        have hshift : RoomFor w.engine.events.length (v.attempts m w₁ releases + 1) ↔
            RoomFor w₁.engine.events.length (v.attempts m w₁ releases) := by
          unfold RoomFor
          omega
        obtain ⟨hthrough, hblocked⟩ := ih hrest w₁
        rw [Prog.run_bind_ok hsubmit, Prog.run_bind_ok hok]
        dsimp only
        rw [hshift]
        refine ⟨fun h => ?_, fun h => ?_⟩
        · rw [Prog.run_bind, hthrough h, run_mapError, Prog.run_bind]
          match (v.host.submitReleases m releases).run w₁ with
          | (.ok reports, w₂) => rfl
          | (.error err, w₂) => rfl
        · obtain ⟨w', hrun⟩ := hblocked h
          exact ⟨w', Prog.run_bind_error hrun⟩
    · obtain ⟨w', hrun⟩ := run_sendRelease_blocked (v := v) (m := m) r (not_le.mp hroom)
      have hnone : ∀ n, ¬ RoomFor w.engine.events.length (n + 1) := by
        unfold RoomFor
        omega
      have hpositive : ∃ n, (match (v.host.submitOrder m r.order).run (w.told r) with
          | (.ok _, w') => v.attempts m w' releases + 1
          | (.error _, _) => 1) = n + 1 := by
        match (v.host.submitOrder m r.order).run (w.told r) with
        | (.ok _, w₁) => exact ⟨_, rfl⟩
        | (.error _, w₁) => exact ⟨0, rfl⟩
      obtain ⟨n, hn⟩ := hpositive
      rw [hn]
      exact ⟨fun h => absurd h (hnone n), fun _ => ⟨w', Prog.run_bind_error hrun⟩⟩

/-! ### The whole event -/

variable (v m) in
/-- How many of the triggered orders the engine tells of while it processes an event. -/
def Venue.attemptsFor (e : Engine) (event : MarketEvent) : Nat :=
  match e.emulator with
  | none => 0
  | some em =>
    match (Engine.emulatorProcessMarketEvent m em event).run e with
    | (.ok releases, e') => v.attempts m { engine := e' } releases
    | (.error _, _) => 0

theorem keeps_events_emulatorProcessMarketEvent (em : Emulator) (event : MarketEvent)
    (events : List ExecutionEvent) : Prog.Keeps (fun e : Engine => e.events = events)
      (Engine.emulatorProcessMarketEvent m em event) := by
  have hreport (report : OrderStatusReport) :
      Prog.Keeps (fun e : Engine => e.events = events) (Engine.applyReport m report) :=
    fun _ h => h
  refine (Prog.Keeps.lift _).bind fun _ => Prog.Keeps.get.bind fun e => ?_
  refine Prog.Keeps.bind (.modify fun _ h => h) fun _ => Prog.Keeps.bind ?_ fun _ => .pure _
  exact (Prog.Keeps.forEach fun report _ => hreport report).bind fun _ =>
    .forEach fun release _ => (hreport release.triggered).bind fun _ => hreport release.released

/-- The emulator hands over orders without their triggers, and tells nobody. -/
theorem handed_over {em : Emulator} {event : MarketEvent} {e e' : Engine}
    {releases : List EmulatedRelease}
    (hrun : (Engine.emulatorProcessMarketEvent m em event).run e = (.ok releases, e')) :
    e'.events = e.events ∧ ∀ r ∈ releases, ∃ order, r.order = transformReleasedOrder order := by
  have hvalid : event.validate = .ok () := by
    cases hcheck : event.validate with
    | ok => rfl
    | error err =>
      rw [Engine.emulatorProcessMarketEvent, hcheck] at hrun
      cases hrun
  obtain ⟨-, -, hreleases⟩ := run_emulatorProcessMarketEvent hvalid hrun
  refine ⟨(keeps_events_emulatorProcessMarketEvent em event _).of_run hrun rfl, fun r hr => ?_⟩
  rw [hreleases releases rfl] at hr
  exact order_of_mem_releases_sweep hr

/-- A call that finds room is the call on a channel without a bound; any other call
blocks. -/
theorem run_sendMarketEvent (e : Engine) (event : MarketEvent) :
    (RoomFor e.events.length (v.attemptsFor m e event) →
      (v.host.sendMarketEvent m event).run { engine := e } =
        ((v.host.processMarketEvent m event).mapError .error).run { engine := e }) ∧
    (¬ RoomFor e.events.length (v.attemptsFor m e event) →
      ∃ w', (v.host.sendMarketEvent m event).run { engine := e } = (.error .blocked, w')) := by
  rw [run_mapError, Host.sendMarketEvent, Host.processMarketEvent, Prog.run_get_bind,
    Prog.run_get_bind, Venue.attemptsFor, show v.host.engine { engine := e } = e from rfl]
  cases e.emulator with
  | none =>
    refine ⟨fun _ => ?_, fun h => absurd (.inl rfl) h⟩
    cases event.validate <;> rfl
  | some em =>
    dsimp only
    rcases hstage : (Engine.emulatorProcessMarketEvent m em event).run e with ⟨result, e'⟩
    cases result with
    | error err =>
      have hzoom : (v.host.onEngine (Engine.emulatorProcessMarketEvent m em event)).run
          { engine := e } = (.error err, { engine := e' }) := Prog.run_zoom hstage
      rw [Prog.run_bind_error hzoom, Prog.run_bind_error (Prog.run_mapError_error hzoom)]
      exact ⟨fun _ => rfl, fun h => absurd (.inl rfl) h⟩
    | ok releases =>
      have hzoom : (v.host.onEngine (Engine.emulatorProcessMarketEvent m em event)).run
          { engine := e } = (.ok releases, { engine := e' }) := Prog.run_zoom hstage
      obtain ⟨hevents, hreleased⟩ := handed_over hstage
      have hloop := run_sendReleases (v := v) (m := m) releases hreleased { engine := e' }
      rw [run_mapError, show ({ engine := e' } : World).engine.events = e.events from hevents]
        at hloop
      rw [Prog.run_bind_ok hzoom, Prog.run_bind_ok (Prog.run_mapError_ok hzoom)]
      exact hloop

/-- Processing an event does not block on the engine's own channel if and only if the
channel has room for two events of each order that is told of. -/
theorem unblocked_iff (v : Venue) (m : Manager) (e : Engine) (event : MarketEvent) :
    ((v.host.sendMarketEvent m event).run { engine := e }).1 ≠ .error .blocked ↔
      RoomFor e.events.length (v.attemptsFor m e event) := by
  obtain ⟨hthrough, hblocked⟩ := run_sendMarketEvent (v := v) (m := m) e event
  constructor
  · intro hne
    by_contra hroom
    obtain ⟨w', hrun⟩ := hblocked hroom
    exact hne (congrArg Prod.fst hrun)
  · intro hroom
    rw [hthrough hroom, run_mapError]
    cases ((v.host.processMarketEvent m event).run { engine := e }).1 <;>
      simp [Except.mapError]

/-! ### Any number of stops -/

/-- A stop for each client order id, all of them at one price. -/
def stopsFor (clients : List ClientOrderID) : Emulator :=
  clients.foldl (fun em client => em.hold (stopOrder client)) {}

theorem get_stopsFor {clients : List ClientOrderID} {key : EmulatedKey} {order : SubmitOrder} :
    (stopsFor clients).orders.get key = some order ↔
      ∃ client ∈ clients, key = ("acct", client) ∧ order = stopOrder client := by
  induction clients using List.reverseRecOn with
  | nil => simp [stopsFor]
  | append_singleton clients last ih =>
    have hput : (stopsFor (clients ++ [last])).orders =
        (stopsFor clients).orders.put ("acct", last) (stopOrder last) := by
      rw [stopsFor, List.foldl_concat]
      rfl
    rw [hput, OrdMap.get_put]
    split
    · next heq =>
        constructor
        · rintro ⟨⟩
          exact ⟨last, List.mem_append_right _ List.mem_cons_self, heq, rfl⟩
        · rintro ⟨client, -, hkey, rfl⟩
          cases hkey.symm.trans heq
          rfl
    · next hne =>
        rw [ih]
        constructor
        · rintro ⟨client, hmem, hkey, horder⟩
          exact ⟨client, List.mem_append_left _ hmem, hkey, horder⟩
        · rintro ⟨client, hmem, hkey, horder⟩
          rcases List.mem_append.mp hmem with hmem | hlast
          · exact ⟨client, hmem, hkey, horder⟩
          · rw [List.mem_singleton.mp hlast] at hkey
            exact absurd hkey hne

def stopRelease (client : ClientOrderID) : EmulatedRelease :=
  emulatedReleaseFromSubmit { stopOrder client with emulationTrigger := .noTrigger }

section Stops

variable {tick : InstrumentID → Option Decimal}

/-- The trade triggers a stop, whatever else is held. -/
theorem evaluate_stopOrder (em : Emulator) (client : ClientOrderID) :
    em.evaluate tick tradeAtStop (stopOrder client) =
      { order := stopOrder client, triggered := true } := rfl

theorem releaseAt_stop {em : Emulator} {client : ClientOrderID}
    (h : em.orders.get ("acct", client) = some (stopOrder client)) :
    em.releaseAt tick tradeAtStop ("acct", client) = some (stopRelease client) := by
  rw [Emulator.releaseAt, h, Option.bind_some, evaluate_stopOrder]
  rfl

/-- While only stops are held, visits update nothing. -/
theorem updates_foldl_visit (keys : List EmulatedKey) {s : Sweep}
    (hstops : ∀ key order, s.emulator.orders.get key = some order → ∃ k, order = stopOrder k) :
    (keys.foldl (Sweep.visit tick tradeAtStop) s).updates = s.updates := by
  induction keys generalizing s with
  | nil => rfl
  | cons key keys ih =>
    have hvisit : (s.visit tick tradeAtStop key).updates = s.updates ∧
        ∀ key' order, (s.visit tick tradeAtStop key).emulator.orders.get key' = some order →
          ∃ k, order = stopOrder k := by
      unfold Sweep.visit
      cases hget : s.emulator.orders.get key with
      | none => exact ⟨rfl, hstops⟩
      | some order =>
        obtain ⟨k, rfl⟩ := hstops key order hget
        dsimp only
        rw [evaluate_stopOrder]
        refine ⟨rfl, fun key' order' hget' => ?_⟩
        change (s.emulator.orders.delete key).get key' = some order' at hget'
        rw [OrdMap.get_delete] at hget'
        split at hget'
        · cases hget'
        · exact hstops key' order' hget'
    rw [List.foldl_cons, ih hvisit.2, hvisit.1]

/-- Every stop is released, and none is only updated. -/
theorem sweep_stopsFor {clients : List ClientOrderID} (hclients : clients.Nodup) :
    ((stopsFor clients).sweep tick tradeAtStop).updates = [] ∧
      ∃ released : List ClientOrderID, released.length = clients.length ∧
        ((stopsFor clients).sweep tick tradeAtStop).releases = released.map stopRelease := by
  constructor
  · refine updates_foldl_visit _ fun key order hget => ?_
    obtain ⟨client, -, -, horder⟩ := get_stopsFor.mp hget
    exact ⟨client, horder⟩
  · have hwaiting : ((stopsFor clients).waiting tradeAtStop.instrumentID).Perm
        (clients.map fun client => ("acct", client)) := by
      refine (List.perm_ext_iff_of_nodup (nodup_waiting _ _)
        (hclients.map fun _ _ h => (Prod.mk.inj h).2)).mpr fun key => ?_
      rw [mem_waiting, List.mem_map]
      constructor
      · rintro ⟨order, hget, -⟩
        obtain ⟨client, hmem, hkey, -⟩ := get_stopsFor.mp hget
        exact ⟨client, hmem, hkey.symm⟩
      · rintro ⟨client, hmem, rfl⟩
        exact ⟨_, get_stopsFor.mpr ⟨client, hmem, rfl, rfl⟩, rfl⟩
    refine ⟨((stopsFor clients).waiting tradeAtStop.instrumentID).map (·.2), ?_, ?_⟩
    · rw [List.length_map, hwaiting.length_eq, List.length_map]
    · rw [Emulator.sweep, (foldl_visit_spec _ (nodup_waiting _ _) _).1, List.nil_append,
        List.map_map, ← List.filterMap_eq_map]
      refine List.filterMap_congr fun key hkey => ?_
      obtain ⟨order, hget, -⟩ := mem_waiting.mp hkey
      obtain ⟨client, hmem, rfl, rfl⟩ := get_stopsFor.mp hget
      exact releaseAt_stop hget

end Stops

/-- A cache in which nothing stands against the report of an open order. -/
structure Calm (c : Cache) : Prop where
  consistent : Consistent c
  deferred : ∀ a i, c.deferredFillsForOrder a i = []
  active : ∀ a i o, c.order a i = some o → o.status.isTerminal = false

theorem Calm.applyOrderReport {c : Cache} (h : Calm c) {o : OrderStatusReport}
    (ho : o.WellFormed) (hactive : o.status.isTerminal = false) :
    ∃ c', (applyOrderReport m o).run c = (.ok (), c') ∧ Calm c' := by
  have hrun : (Execution.applyOrderReport m o).run c = (.ok (), overwrite c o) := by
    refine run_applyOrderReport_overwrite h.consistent ho (fun e he hbad => ?_) fun f hf => ?_
    · cases (h.active _ _ e he).symm.trans hbad.1
    · rw [h.deferred] at hf
      cases hf
  have hstored : (c.storeOrder (normalizeOrder o)).deferredFillsForOrder o.accountID o.orderID =
      [] := by
    rw [deferredFillsForOrder_storeOrder, h.deferred]
  rw [overwrite, clearDeferredFillsForOrder_eq_self hstored] at hrun
  refine ⟨_, hrun, (keeps_consistent_applyOrderReport (m := m)).of_run hrun h.consistent,
    fun a i => ?_, fun a i e he => ?_⟩
  · rw [deferredFillsForOrder_storeOrder, h.deferred]
  · by_cases hsame : (a, i) = (o.accountID, o.orderID)
    · cases hsame
      rw [order_storeOrder_normalize] at he
      cases he
      rw [normalizeOrder_status, hactive]
    · have hold : c.order a i = some e := by
        refine ((order_storeOrder_other h.consistent.orders ?_).mp he).1
        rwa [normalizeOrder_accountID, normalizeOrder_orderID]
      exact h.active a i e hold

/-- A venue that accepts every order. -/
def accepting : Venue :=
  { reply := fun _ => .ok (orderStatusReportFromSubmit (stopOrder "order") .accepted) }

theorem wellFormed_stopReport (client : ClientOrderID) (trigger : TriggerType)
    {status : OrderStatus} (h : status ≠ .unset) :
    (orderStatusReportFromSubmit { stopOrder client with emulationTrigger := trigger }
      status).WellFormed := by
  have hid : "emulated-" ++ client ≠ "" := by
    intro heq
    have hlength := congrArg String.length heq
    rw [String.length_append] at hlength
    exact absurd hlength (by simp)
  have hinstrument : InstrumentID.validate ⟨"BTC-USDT-PERP", "BINANCE"⟩ = .ok () := by
    decide +kernel
  exact ⟨by simp [orderStatusReportFromSubmit, stopOrder], hid, h, hinstrument, rfl, rfl, rfl, le_refl _,
    by simp [orderStatusReportFromSubmit, stopOrder],
    by simp [orderStatusReportFromSubmit, stopOrder],
    by simp [orderStatusReportFromSubmit, stopOrder]⟩

theorem takes_stopRelease (client : ClientOrderID) :
    accepting.Takes (stopRelease client).order := by
  -- the client order id is not checked
  have hvalid : (stopRelease "").order.validate = .ok () := by decide +kernel
  exact ⟨rfl, hvalid, rfl⟩

theorem attempts_stops (clients : List ClientOrderID) (w : World) (hcalm : Calm w.engine.cache) :
    accepting.attempts m w (clients.map stopRelease) = clients.length := by
  induction clients generalizing w with
  | nil => rfl
  | cons client clients ih =>
    rw [List.map_cons, Venue.attempts, List.length_cons]
    match hsubmit : (accepting.host.submitOrder m (stopRelease client).order).run
        (w.told (stopRelease client)) with
    | (result, w') =>
      have hrun := hsubmit
      rw [show (stopRelease client).order = transformReleasedOrder
        { stopOrder client with emulationTrigger := .noTrigger } from rfl,
        Host.submitOrder_transformReleasedOrder] at hrun
      obtain ⟨-, -, hok⟩ := run_submit_of_takes (takes_stopRelease client) hrun
      have haccepted : OrderStatus.accepted ≠ .unset := by decide
      obtain ⟨c', hrecord, hcalm'⟩ := hcalm.applyOrderReport (m := m)
        (wellFormed_stopReport "order" .lastPrice haccepted) rfl
      obtain ⟨hresult, hcache⟩ := (hok _ c').mpr ⟨rfl, hrecord⟩
      rw [hresult]
      exact congrArg (· + 1) (ih w' (hcache ▸ hcalm'))

theorem Calm.recordStops (clients : List ClientOrderID) {c : Cache} (hcalm : Calm c) :
    ∃ c', (Prog.forEach (fun release : EmulatedRelease => do
        Execution.applyOrderReport m release.triggered
        Execution.applyOrderReport m release.released) (clients.map stopRelease)).run c =
      (.ok (), c') ∧ Calm c' := by
  induction clients generalizing c with
  | nil => exact ⟨c, rfl, hcalm⟩
  | cons client clients ih =>
    have htriggered : OrderStatus.triggered ≠ .unset := by decide
    have hreleased : OrderStatus.released ≠ .unset := by decide
    obtain ⟨c₁, hrun₁, hcalm₁⟩ := hcalm.applyOrderReport (m := m)
      (wellFormed_stopReport client .noTrigger htriggered) rfl
    obtain ⟨c₂, hrun₂, hcalm₂⟩ := hcalm₁.applyOrderReport (m := m)
      (wellFormed_stopReport client .noTrigger hreleased) rfl
    obtain ⟨c', hrun, hcalm'⟩ := ih hcalm₂
    refine ⟨c', ?_, hcalm'⟩
    have hfirst : (do
        Execution.applyOrderReport m (stopRelease client).triggered
        Execution.applyOrderReport m (stopRelease client).released).run c = (.ok (), c₂) :=
      (Prog.run_bind_ok hrun₁).trans hrun₂
    rw [List.map_cons, Prog.forEach_cons, Prog.run_bind_ok hfirst]
    exact hrun

/-- Every one of the stops is told of. -/
theorem attemptsFor_stopsFor {clients : List ClientOrderID} (hclients : clients.Nodup) :
    accepting.attemptsFor m { emulator := some (stopsFor clients) } tradeAtStop =
      clients.length := by
  let e : Engine := { emulator := some (stopsFor clients) }
  obtain ⟨hupdates, released, hlength, hreleases⟩ := @sweep_stopsFor _ e.tick _ hclients
  have hcalm : Calm Cache.new := ⟨consistent_new, fun _ _ => rfl, fun _ _ _ h => by cases h⟩
  obtain ⟨c', hrecord, hcalm'⟩ := hcalm.recordStops (m := m) released
  have hvalid : tradeAtStop.validate = .ok () := by decide +kernel
  match hstage : (Engine.emulatorProcessMarketEvent m (stopsFor clients) tradeAtStop).run e with
  | (result, e') =>
    obtain ⟨-, hsweep, hresult⟩ := run_emulatorProcessMarketEvent hvalid hstage
    rw [recordSweep, hupdates, hreleases, Prog.forEach_nil,
      Prog.run_bind_ok (Prog.run_pure () _)] at hsweep
    have hsweep := hrecord.symm.trans hsweep
    rw [Venue.attemptsFor]
    change (match (Engine.emulatorProcessMarketEvent m (stopsFor clients) tradeAtStop).run e with
      | (.ok releases, e') => accepting.attempts m { engine := e' } releases
      | (.error _, _) => 0) = _
    rw [hstage]
    cases result with
    | error err => cases congrArg Prod.fst hsweep
    | ok releases =>
      have hcache : e'.cache = c' := (congrArg Prod.snd hsweep).symm
      rw [hresult releases rfl, hreleases, ← hlength]
      exact attempts_stops released _ (hcache ▸ hcalm')

end Capacity

/-! ### A trade at the price of 129 stops -/

/-- So many different client order ids. -/
def clientIDs (n : Nat) : List ClientOrderID :=
  (List.range n).map fun i => String.ofList (List.replicate i 'x')

theorem nodup_clientIDs (n : Nat) : (clientIDs n).Nodup := by
  refine List.nodup_range.map fun i j h => ?_
  have hlength := congrArg List.length (String.ofList_injective h)
  rwa [List.length_replicate, List.length_replicate] at hlength

/-- The 129th stop is told of on a channel that is full. -/
theorem blocked_by_stops :
    ((@Host.sendMarketEvent exactDecimals _ accepting.host {} tradeAtStop).run
      { engine := { emulator := some (stopsFor (clientIDs 129)) } }).1 = .error .blocked := by
  obtain ⟨-, hblocked⟩ := @run_sendMarketEvent exactDecimals accepting {}
    { emulator := some (stopsFor (clientIDs 129)) } tradeAtStop
  rw [@attemptsFor_stopsFor exactDecimals _ _ (nodup_clientIDs 129)] at hblocked
  obtain ⟨w', hrun⟩ := hblocked (by simp [RoomFor, eventCapacity, clientIDs])
  rw [hrun]

end Exchanges.Execution
