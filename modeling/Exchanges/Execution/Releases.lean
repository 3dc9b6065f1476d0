import Exchanges.Execution.Engine

/-!
Releasing emulated orders: which of the orders that a market event triggers reach
the venue.

The emulator gives up every triggered order before the first of them is submitted,
and the submissions stop at the first error. So an order behind one that fails is
neither held nor submitted. Each order is submitted once exactly if nothing fails
before the last submission.
-/

namespace Exchanges.Execution

open Exchanges.Lib Exchanges.Model

set_option linter.unusedSectionVars false

/-! ### An engine and its venues -/

/-- The code outside the engine, which answers a request as it likes, by what it was
asked before, and does nothing to the engine. -/
structure Venue where
  connected : AccountID → Bool := fun _ => true
  modifies : AccountID → Bool := fun _ => true
  algorithms : ExecAlgorithmID → Bool := fun _ => false
  reply : List Request → Except Err OrderStatusReport

/-- An engine, and what it has asked of others. -/
structure World where
  engine : Engine
  requests : List Request := []

def Venue.host (v : Venue) : Host World where
  engine := World.engine
  setEngine e w := { w with engine := e }
  connected := v.connected
  modifies := v.modifies
  algorithms := v.algorithms
  call request := ⟨fun w =>
    (v.reply (w.requests ++ [request]), { w with requests := w.requests ++ [request] })⟩

/-- The orders that were submitted to a client. -/
def submitted (requests : List Request) : List SubmitOrder :=
  requests.filterMap fun
    | .submit order => some order
    | _ => none

@[simp] theorem submitted_append (xs ys : List Request) :
    submitted (xs ++ ys) = submitted xs ++ submitted ys := List.filterMap_append

/-- How often the order with a key was submitted. -/
def submissions (requests : List Request) (key : EmulatedKey) : Nat :=
  ((submitted requests).map emulatedKey).count key

/-- The engine's emulator holds an order. -/
def Engine.Holds (e : Engine) (key : EmulatedKey) : Prop :=
  (e.emulator.bind fun em => em.orders.get key).isSome

section Release

variable [DecimalPackage] (v : Venue) (m : Manager)

/-- The event meets the trigger condition of an order that the engine holds. -/
def Engine.Triggers (e : Engine) (event : MarketEvent) (key : EmulatedKey) : Prop :=
  ∃ em, e.emulator = some em ∧ em.Triggers e.tick event key

/-- What the emulator makes of an event. -/
def Engine.sweep (e : Engine) (event : MarketEvent) : Option Sweep :=
  e.emulator.map fun em => em.sweep e.tick event

/-- The orders that an event releases, as they are submitted. -/
def Engine.releasedOrders (e : Engine) (event : MarketEvent) : List SubmitOrder :=
  ((e.sweep event).map fun sweep => sweep.releases.map (·.order)).getD []

/-- The reports about the orders that changed and about those that were triggered, as
they are recorded one after the other. -/
def recordSweep (sweep : Sweep) : Prog Cache Err Unit := do
  Prog.forEach (applyOrderReport m) sweep.updates
  Prog.forEach (fun release : EmulatedRelease => do
    applyOrderReport m release.triggered
    applyOrderReport m release.released) sweep.releases

/-- An order that is valid, meant for no algorithm, and has a client. -/
def Venue.Takes (order : SubmitOrder) : Prop :=
  order.metadata.execAlgorithmID = "" ∧ order.validate = .ok () ∧
    v.connected order.accountID = true

/-- Every order reaches its client, and no submission before the last one fails, nor
the recording of its report. -/
def Venue.Delivers (c : Cache) (requests : List Request) : List SubmitOrder → Prop
  | [] => True
  | order :: orders => v.Takes order ∧ (orders = [] ∨
      ∃ report c', v.reply (requests ++ [.submit order]) = .ok report ∧
        (applyOrderReport m report).run c = (.ok (), c') ∧
        Venue.Delivers c' (requests ++ [.submit order]) orders)

/-- Nothing fails before the last of the triggered orders is submitted. -/
def Venue.Undisturbed (e : Engine) (event : MarketEvent) : Prop :=
  e.releasedOrders event = [] ∨ event.validate = .ok () ∧
    ∃ sweep c, e.sweep event = some sweep ∧ (recordSweep m sweep).run e.cache = (.ok (), c) ∧
      v.Delivers m c [] (e.releasedOrders event)

/-! ### One submission -/

variable {v m} {w w' : World} {order : SubmitOrder}

/-- The world after a request that changed no more than the cache, the cached commands
and the published events. -/
structure Kept (w w' : World) : Prop where
  requests : submitted w'.requests = submitted w.requests
  emulator : w'.engine.emulator = w.engine.emulator

theorem run_cacheSubmitCommand_ok (h : order.validate = .ok ()) (w : World) :
    ∃ submits, (v.host.onEngine (Engine.cacheSubmitCommand order)).run w =
      (.ok (), { w with engine := { w.engine with submits := submits } }) := by
  refine ⟨w.engine.submits.put order.clientOrderID order, Prog.run_zoom ?_⟩
  rw [Engine.cacheSubmitCommand, h]
  rfl

theorem run_client_ok (h : v.connected order.accountID = true) :
    (v.host.client order.accountID).run w = (.ok (), w) := by
  have hok : reject (v.connected order.accountID = false)
      (⟨.clientNotFound, "account", [order.accountID]⟩ : Err) = .ok () := by
    rw [reject_eq_ok, h]
    simp
  exact congrArg (fun x => (x, w)) hok

/-- Recording a report and answering with it. -/
theorem run_record (report : OrderStatusReport) (w : World) :
    (do
      v.host.onEngine (Engine.applyReport m report)
      pure report : Prog World Err OrderStatusReport).run w =
      (((applyOrderReport m report).run w.engine.cache).1.map fun _ => report, { w with
        engine := { w.engine with
          cache := ((applyOrderReport m report).run w.engine.cache).2 } }) := by
  have hzoom : (v.host.onEngine (Engine.applyReport m report)).run w =
      (((applyOrderReport m report).run w.engine.cache).1, { w with
        engine := { w.engine with
          cache := ((applyOrderReport m report).run w.engine.cache).2 } }) := rfl
  rw [Prog.run_bind, hzoom]
  cases ((applyOrderReport m report).run w.engine.cache).1 <;> rfl

theorem run_call (request : Request) (w : World) :
    (v.host.call request).run w =
      (v.reply (w.requests ++ [request]), { w with requests := w.requests ++ [request] }) := rfl

/-- An order that its client takes is submitted, and the next one follows only if the
client answers with a report that can be recorded. -/
theorem run_submit_of_takes (h : v.Takes order) {result : Except Err OrderStatusReport}
    (hrun : (v.host.submitUnemulated m order).run w = (result, w')) :
    w'.requests = w.requests ++ [.submit order] ∧ w'.engine.emulator = w.engine.emulator ∧
      ∀ report c, result = .ok report ∧ w'.engine.cache = c ↔
        v.reply (w.requests ++ [.submit order]) = .ok report ∧
          (applyOrderReport m report).run w.engine.cache = (.ok (), c) := by
  obtain ⟨halgorithm, hvalid, hconnected⟩ := h
  obtain ⟨submits, hcommand⟩ := run_cacheSubmitCommand_ok (v := v) hvalid w
  rw [Host.submitUnemulated, if_neg (not_not.mpr halgorithm), Host.submitOrderToClient,
    Prog.run_bind_ok hcommand, Prog.run_bind_ok (run_client_ok hconnected)] at hrun
  have hcall := run_call (v := v) (.submit order)
    { w with engine := { w.engine with submits := submits } }
  dsimp only at hcall
  cases hreply : v.reply (w.requests ++ [.submit order]) with
  | error err =>
    rw [hreply] at hcall
    rw [Prog.run_bind_error hcall] at hrun
    cases hrun
    exact ⟨rfl, rfl, fun report c => by simp⟩
  | ok answer =>
    rw [hreply] at hcall
    rw [Prog.run_bind_ok hcall, run_record] at hrun
    cases hrun
    refine ⟨rfl, rfl, fun report c => ?_⟩
    dsimp only
    constructor
    · rintro ⟨hok, rfl⟩
      cases hresult : ((applyOrderReport m answer).run w.engine.cache).1 with
      | error err =>
        rw [hresult] at hok
        cases hok
      | ok =>
        rw [hresult] at hok
        cases hok
        exact ⟨rfl, Prod.ext hresult rfl⟩
    · rintro ⟨hanswer, happly⟩
      cases hanswer
      rw [happly]
      exact ⟨rfl, rfl⟩

/-- An order that its client does not take is not submitted. -/
theorem run_submit_of_not_takes (h : ¬ v.Takes order)
    {result : Except Err OrderStatusReport}
    (hrun : (v.host.submitUnemulated m order).run w = (result, w')) : Kept w w' := by
  rw [Host.submitUnemulated] at hrun
  split_ifs at hrun with halgorithm
  · -- the request goes to an algorithm instead
    rw [Host.submitOrderToAlgorithm] at hrun
    cases hknown : reject (v.algorithms order.metadata.execAlgorithmID = false)
        (⟨.algorithmNotFound, "", [order.metadata.execAlgorithmID]⟩ : Err) with
    | error err =>
      rw [show v.host.algorithms = v.algorithms from rfl, hknown] at hrun
      cases hrun
      exact ⟨rfl, rfl⟩
    | ok =>
      rw [show v.host.algorithms = v.algorithms from rfl, hknown,
        Prog.run_bind_ok (Prog.run_lift _ _)] at hrun
      have hcall := run_call (v := v) (.algorithm order.metadata.execAlgorithmID order) w
      cases hreply : v.reply
          (w.requests ++ [.algorithm order.metadata.execAlgorithmID order]) with
      | error err =>
        rw [hreply] at hcall
        rw [Prog.run_bind_error hcall] at hrun
        cases hrun
        exact ⟨by simp [submitted], rfl⟩
      | ok answer =>
        rw [hreply] at hcall
        rw [Prog.run_bind_ok hcall, run_record] at hrun
        cases hrun
        exact ⟨by simp [submitted], rfl⟩
  · -- the order is not valid, or its account has no client
    rw [Host.submitOrderToClient] at hrun
    cases hvalid : order.validate with
    | error err =>
      have hcommand : (v.host.onEngine (Engine.cacheSubmitCommand order)).run w =
          (.error err, w) := by
        have hlift : (Engine.cacheSubmitCommand order).run w.engine =
            (.error err, w.engine) := by
          rw [Engine.cacheSubmitCommand, hvalid]
          rfl
        exact Prog.run_zoom hlift
      rw [Prog.run_bind_error hcommand] at hrun
      cases hrun
      exact ⟨rfl, rfl⟩
    | ok =>
      have hconnected : v.connected order.accountID = false := by
        by_contra hne
        exact h ⟨not_not.mp halgorithm, hvalid, by simpa using hne⟩
      have hclient (w : World) : (v.host.client order.accountID).run w =
          (.error ⟨.clientNotFound, "account", [order.accountID]⟩, w) := by
        refine congrArg (fun x => (x, w)) ?_
        exact if_pos hconnected
      obtain ⟨submits, hcommand⟩ := run_cacheSubmitCommand_ok (v := v) hvalid w
      rw [Prog.run_bind_ok hcommand, Prog.run_bind_error (hclient _)] at hrun
      cases hrun
      exact ⟨rfl, rfl⟩

/-! ### All submissions -/

theorem run_publish (report : OrderStatusReport) (kind : OrderEventKind)
    (previous : OrderStatus) (w : World) :
    ∃ events, (v.host.onEngine (Engine.publishOrderLifecycle report kind previous)).run w =
      (.ok (), { w with engine := { w.engine with events := events } }) := ⟨_, rfl⟩

/-- The released orders are submitted in turn, and all of them exactly if nothing
fails before the last. -/
theorem run_submitReleases (releases : List EmulatedRelease)
    (hreleased : ∀ r ∈ releases, ∃ order, r.order = transformReleasedOrder order)
    {result : Except Err (List OrderStatusReport)}
    (hrun : (v.host.submitReleases m releases).run w = (result, w')) :
    w'.engine.emulator = w.engine.emulator ∧
      ∃ sent, submitted w'.requests = submitted w.requests ++ sent ∧
        sent.Sublist (releases.map (·.order)) ∧
        (sent = releases.map (·.order) ↔
          v.Delivers m w.engine.cache w.requests (releases.map (·.order))) := by
  induction releases generalizing w w' result with
  | nil =>
    cases hrun
    exact ⟨rfl, [], (List.append_nil _).symm, List.Sublist.refl _, by simp [Venue.Delivers]⟩
  | cons r releases ih =>
    obtain ⟨hr, hrest⟩ := List.forall_mem_cons.mp hreleased
    obtain ⟨order, horder⟩ := hr
    obtain ⟨events, htriggered⟩ := run_publish (v := v) r.triggered .triggered .emulated w
    obtain ⟨events', hpublished⟩ := run_publish (v := v) r.released .released .triggered
      { w with engine := { w.engine with events := events } }
    rw [Host.submitReleases, Prog.run_bind_ok htriggered, Prog.run_bind_ok hpublished, horder,
      Host.submitOrder_transformReleasedOrder, ← horder] at hrun
    obtain ⟨w₁, hw₁⟩ : ∃ w₁ : World, w₁ =
      { w with engine := { w.engine with events := events' } } := ⟨_, rfl⟩
    have hrequests : w₁.requests = w.requests := by rw [hw₁]
    have hcache : w₁.engine.cache = w.engine.cache := by rw [hw₁]
    have hemulator : w₁.engine.emulator = w.engine.emulator := by rw [hw₁]
    rw [← hw₁] at hrun
    rw [← hrequests, ← hcache, ← hemulator, List.map_cons]
    match hsubmit : (v.host.submitUnemulated m r.order).run w₁ with
    | (.error err, w₂) =>
      rw [Prog.run_bind_error hsubmit] at hrun
      cases hrun
      by_cases htakes : v.Takes r.order
      · obtain ⟨hsent, hem, hok⟩ := run_submit_of_takes htakes hsubmit
        refine ⟨hem, [r.order], by rw [hsent, submitted_append]; rfl,
          List.singleton_sublist.mpr List.mem_cons_self, ?_⟩
        -- nothing follows the failure, so nothing may be left
        have hfails : ¬ ∃ report c, v.reply (w₁.requests ++ [.submit r.order]) = .ok report ∧
            (applyOrderReport m report).run w₁.engine.cache = (.ok (), c) := by
          rintro ⟨report, c, hreply⟩
          cases ((hok report c).mpr hreply).1
        constructor
        · intro hall
          exact ⟨htakes, .inl (List.cons.inj hall).2.symm⟩
        · rintro ⟨-, hnil | ⟨report, c, hreply, happly, -⟩⟩
          · rw [hnil]
          · exact absurd ⟨report, c, hreply, happly⟩ hfails
      · have hkept := run_submit_of_not_takes htakes hsubmit
        refine ⟨hkept.emulator, [], by rw [hkept.requests, List.append_nil],
          List.nil_sublist _, ?_⟩
        simp [Venue.Delivers, htakes]
    | (.ok report, w₂) =>
      rw [Prog.run_bind_ok hsubmit, Prog.run_bind] at hrun
      match hothers : (v.host.submitReleases m releases).run w₂ with
      | (answer, w₃) =>
        have hw' : w' = w₃ := by
          rw [hothers] at hrun
          cases answer <;> cases hrun <;> rfl
        rw [hw']
        obtain ⟨hem', sent, hsent', hsub, hall⟩ := ih hrest hothers
        by_cases htakes : v.Takes r.order
        · obtain ⟨hsent, hem, hok⟩ := run_submit_of_takes htakes hsubmit
          obtain ⟨hreply, happly⟩ := (hok report w₂.engine.cache).mp ⟨rfl, rfl⟩
          rw [hsent] at hall
          refine ⟨hem'.trans hem, r.order :: sent, ?_, hsub.cons_cons _, ?_⟩
          · rw [hsent', hsent, submitted_append, List.append_assoc]
            rfl
          · rw [List.cons.injEq, eq_self_iff_true, true_and, hall]
            constructor
            · intro hdelivers
              exact ⟨htakes, .inr ⟨report, _, hreply, happly, hdelivers⟩⟩
            · rintro ⟨-, hnil | ⟨report', c, hreply', happly', hdelivers⟩⟩
              · rw [hnil]
                trivial
              · cases hreply.symm.trans hreply'
                cases happly.symm.trans happly'
                exact hdelivers
        · have hkept := run_submit_of_not_takes htakes hsubmit
          refine ⟨hem'.trans hkept.emulator, sent, by rw [hsent', hkept.requests],
            hsub.cons _, ?_⟩
          constructor
          · intro hall
            have hlength := hsub.length_le
            rw [hall, List.length_cons] at hlength
            omega
          · rintro ⟨htakes', -⟩
            exact absurd htakes' htakes

/-! ### The whole event -/

theorem projects_applyReport (report : OrderStatusReport) :
    Prog.Projects Engine.cache (Engine.applyReport m report) (applyOrderReport m report) :=
  @Prog.Projects.zoom _ _ _ _ Engine.cache (fun c e => { e with cache := c }) (fun _ _ => rfl)
    (applyOrderReport m report)

theorem projects_applySweep (sweep : Sweep) :
    Prog.Projects Engine.cache (Engine.applySweep m sweep) (recordSweep m sweep) := by
  unfold Engine.applySweep recordSweep
  refine (Prog.Projects.forEach projects_applyReport _).bind fun _ => .forEach (fun release => ?_) _
  exact (projects_applyReport _).bind fun _ => projects_applyReport _

theorem keeps_emulator_applySweep (sweep : Sweep) (em : Option Emulator) :
    Prog.Keeps (fun e : Engine => e.emulator = em) (Engine.applySweep m sweep) := by
  have hreport (report : OrderStatusReport) :
      Prog.Keeps (fun e : Engine => e.emulator = em) (Engine.applyReport m report) :=
    fun _ h => h
  exact (Prog.Keeps.forEach fun report _ => hreport report).bind fun _ =>
    .forEach fun release _ => (hreport release.triggered).bind fun _ => hreport release.released

/-- Before the first submission the triggered orders have left the emulator, whether
the reports about them can be recorded or not. -/
theorem run_emulatorProcessMarketEvent {em : Emulator} {event : MarketEvent} {e e' : Engine}
    {result : Except Err (List EmulatedRelease)} (hvalid : event.validate = .ok ())
    (hrun : (Engine.emulatorProcessMarketEvent m em event).run e = (result, e')) :
    e'.emulator = some (em.sweep e.tick event).emulator ∧
      (recordSweep m (em.sweep e.tick event)).run e.cache =
        (result.map fun _ => (), e'.cache) ∧
      ∀ releases, result = .ok releases → releases = (em.sweep e.tick event).releases := by
  rw [Engine.emulatorProcessMarketEvent, hvalid, Prog.run_bind_ok (Prog.run_lift _ _),
    Prog.run_get_bind] at hrun
  dsimp only at hrun
  have hset : (Engine.setEmulator (em.sweep e.tick event).emulator).run e =
      (.ok (), { e with emulator := some (em.sweep e.tick event).emulator }) := rfl
  rw [Prog.run_bind_ok hset, Prog.run_bind] at hrun
  have hproject := projects_applySweep (m := m) (em.sweep e.tick event)
    { e with emulator := some (em.sweep e.tick event).emulator }
  have hkeeps := keeps_emulator_applySweep (m := m) (em.sweep e.tick event) _
    { e with emulator := some (em.sweep e.tick event).emulator } rfl
  match hsweep : (Engine.applySweep m (em.sweep e.tick event)).run
      { e with emulator := some (em.sweep e.tick event).emulator } with
  | (.error err, e₁) =>
    rw [hsweep] at hrun hproject hkeeps
    cases hrun
    exact ⟨hkeeps, hproject, fun _ h => by cases h⟩
  | (.ok (), e₁) =>
    rw [hsweep] at hrun hproject hkeeps
    cases hrun
    exact ⟨hkeeps, hproject, fun _ h => by cases h; rfl⟩

/-- What an event leaves: the orders in the emulator are those from before it or those
after it, a part of the triggered orders has been submitted, and all of them have exactly
if nothing was disturbed. -/
theorem run_processMarketEvent {em : Emulator} {event : MarketEvent} {e : Engine}
    (hem : e.emulator = some em) {result : Except Err (List OrderStatusReport)}
    (hrun : (v.host.processMarketEvent m event).run { engine := e } = (result, w)) :
    (w.engine.emulator = some em ∨ w.engine.emulator = some (em.sweep e.tick event).emulator) ∧
      (submitted w.requests).Sublist (e.releasedOrders event) ∧
      (submitted w.requests = e.releasedOrders event ↔ v.Undisturbed m e event) := by
  have hsweep : e.sweep event = some (em.sweep e.tick event) := by
    rw [Engine.sweep, hem]
    rfl
  have hreleased : e.releasedOrders event =
      (em.sweep e.tick event).releases.map (·.order) := by
    rw [Engine.releasedOrders, hsweep]
    rfl
  have hundisturbed : v.Undisturbed m e event ↔ e.releasedOrders event = [] ∨
      event.validate = .ok () ∧ ∃ c,
        (recordSweep m (em.sweep e.tick event)).run e.cache = (.ok (), c) ∧
          v.Delivers m c [] (e.releasedOrders event) := by
    simp only [Venue.Undisturbed, hsweep, Option.some.injEq]
    simp
  -- nothing is submitted if the event or one of the reports is refused
  have hnothing (hempty : w.requests = []) (hnot : ¬ (event.validate = .ok () ∧
      ∃ c, (recordSweep m (em.sweep e.tick event)).run e.cache = (.ok (), c) ∧
        v.Delivers m c [] (e.releasedOrders event))) :
      (submitted w.requests).Sublist (e.releasedOrders event) ∧
        (submitted w.requests = e.releasedOrders event ↔ v.Undisturbed m e event) := by
    rw [hempty, hundisturbed, or_iff_left hnot]
    exact ⟨List.nil_sublist _, eq_comm⟩
  rw [Host.processMarketEvent, Prog.run_get_bind,
    show v.host.engine { engine := e } = e from rfl, hem] at hrun
  dsimp only at hrun
  rw [Prog.run_bind] at hrun
  match hstage : (Engine.emulatorProcessMarketEvent m em event).run e with
  | (stage, e₁) =>
    have hzoom : (v.host.onEngine (Engine.emulatorProcessMarketEvent m em event)).run
        { engine := e } = (stage, { engine := e₁ }) := Prog.run_zoom hstage
    rw [hzoom] at hrun
    cases hvalid : event.validate with
    | error err =>
      have hstop : (Engine.emulatorProcessMarketEvent m em event).run e =
          (.error err, e) := by
        rw [Engine.emulatorProcessMarketEvent, hvalid]
        rfl
      cases hstage.symm.trans hstop
      cases hrun
      exact ⟨.inl hem, hnothing rfl (by rw [hvalid]; simp)⟩
    | ok =>
      obtain ⟨hemulator, hrecord, hreleases⟩ :=
        run_emulatorProcessMarketEvent hvalid hstage
      cases stage with
      | error err =>
        cases hrun
        exact ⟨.inr hemulator, hnothing rfl (by rw [hrecord]; simp [Except.map])⟩
      | ok releases =>
        cases hreleases releases rfl
        dsimp only at hrun
        obtain ⟨hem', sent, hsent, hsub, hall⟩ := run_submitReleases _
          (fun r hr => order_of_mem_releases_sweep hr) hrun
        rw [← hreleased] at hsub hall
        have hsent : submitted w.requests = sent := hsent
        rw [hsent, hall, hundisturbed, hrecord]
        refine ⟨.inr (hem'.trans hemulator), hsub, fun hdelivers =>
          .inr ⟨hvalid, _, rfl, hdelivers⟩, ?_⟩
        rintro (hnone | ⟨-, c, hc, hdelivers⟩)
        · rw [hnone]
          trivial
        · cases hc
          exact hdelivers

/-! ### Exactly once -/

theorem mem_releasedOrders {e : Engine} {event : MarketEvent} {key : EmulatedKey} :
    key ∈ (e.releasedOrders event).map emulatedKey ↔ e.Triggers event key := by
  cases hem : e.emulator with
  | none => simp [Engine.releasedOrders, Engine.sweep, Engine.Triggers, hem]
  | some em =>
    simp only [Engine.releasedOrders, Engine.sweep, Engine.Triggers, hem, Option.map_some,
      Option.getD_some, List.map_map, List.mem_map, Option.some.injEq, exists_eq_left']
    exact mem_releases_sweep

theorem nodup_releasedOrders (e : Engine) (event : MarketEvent) :
    ((e.releasedOrders event).map emulatedKey).Nodup := by
  cases hem : e.emulator with
  | none => simp [Engine.releasedOrders, Engine.sweep, hem]
  | some em =>
    simp only [Engine.releasedOrders, Engine.sweep, hem, Option.map_some, Option.getD_some,
      List.map_map]
    exact nodup_releases_sweep em

/-- A part of the triggered orders is all of them if it has each of their keys. -/
theorem eq_releasedOrders_iff {e : Engine} {event : MarketEvent} {orders : List SubmitOrder}
    (h : orders.Sublist (e.releasedOrders event)) :
    orders = e.releasedOrders event ↔
      ∀ key, e.Triggers event key → (orders.map emulatedKey).count key = 1 := by
  have hnodup := nodup_releasedOrders e event
  constructor
  · intro heq key htriggers
    rw [heq]
    exact List.count_eq_one_of_mem hnodup (mem_releasedOrders.mpr htriggers)
  · intro hall
    have hsubset : (e.releasedOrders event).map emulatedKey ⊆ orders.map emulatedKey := by
      intro key hkey
      have hcount := hall key (mem_releasedOrders.mp hkey)
      exact List.count_pos_iff.mp (by omega)
    have hlength := (List.subperm_of_subset hnodup hsubset).length_le
    rw [List.length_map, List.length_map] at hlength
    exact h.eq_of_length_le hlength

/-- A submission for every triggered order, and no other order is lost. -/
def ReleasedOnce (e : Engine) (event : MarketEvent) (w : World) : Prop :=
  (∀ key, e.Triggers event key → submissions w.requests key = 1) ∧
    ∀ key, e.Holds key → submissions w.requests key = 0 → w.engine.Holds key

/-- Every triggered order is submitted exactly once, and every order that is not
submitted stays in the emulator, if and only if nothing fails before the last of the
triggered orders is submitted. -/
theorem released_once_iff (v : Venue) (m : Manager) (e : Engine) (event : MarketEvent) :
    ReleasedOnce e event ((v.host.processMarketEvent m event).run { engine := e }).2 ↔
      v.Undisturbed m e event := by
  cases hem : e.emulator with
  | none =>
    have hnone : e.releasedOrders event = [] := by
      simp [Engine.releasedOrders, Engine.sweep, hem]
    refine iff_of_true ⟨?_, ?_⟩ (.inl hnone)
    · rintro key ⟨em, hsome, -⟩
      cases hem.symm.trans hsome
    · intro key hholds
      rw [Engine.Holds, hem] at hholds
      cases hholds
  | some em =>
    match hrun : (v.host.processMarketEvent m event).run { engine := e } with
    | (result, w) =>
      obtain ⟨hemulator, hsub, hall⟩ := run_processMarketEvent hem hrun
      rw [← hall, eq_releasedOrders_iff hsub]
      refine and_iff_left_of_imp fun honce key hholds hzero => ?_
      have hnot : ¬ em.Triggers e.tick event key := fun htriggers => by
        cases (honce key ⟨em, hem, htriggers⟩).symm.trans hzero
      rw [Engine.Holds, hem] at hholds
      rw [Engine.Holds]
      rcases hemulator with hkept | hswept
      · rw [hkept]
        exact hholds
      · rw [hswept]
        exact held_sweep.mpr ⟨hholds, hnot⟩

end Release

/-! ### Two stops at one price -/

def stopOrder (clientOrderID : ClientOrderID) : SubmitOrder :=
  { accountID := "acct", instrumentID := ⟨"BTC-USDT-PERP", "BINANCE"⟩
    clientOrderID := clientOrderID, side := .buy, type := .stopMarket, quantity := 1
    triggerPrice := 100, emulationTrigger := .lastPrice }

/-- Two stops that are held. -/
def twoStops : Emulator := (({} : Emulator).hold (stopOrder "stop-1")).hold (stopOrder "stop-2")

/-- A trade at the price of both. -/
def tradeAtStop : MarketEvent :=
  { trade := some
      { instrumentID := ⟨"BTC-USDT-PERP", "BINANCE"⟩, price := 100, size := 1
        aggressorSide := .buyer, tradeID := "trade-1", timestamp := 1 } }

/-- A venue that refuses every order. -/
def refusing : Venue := { reply := fun _ => .error (invalidOrder "refused") }

def afterTrade : World :=
  ((@Host.processMarketEvent exactDecimals _ refusing.host {} tradeAtStop).run
    { engine := { emulator := some twoStops } }).2

/-- The first stop is refused, and the second is then neither submitted nor held. -/
theorem second_stop_lost :
    @Engine.Triggers exactDecimals { emulator := some twoStops } tradeAtStop ("acct", "stop-2") ∧
      submissions afterTrade.requests ("acct", "stop-2") = 0 ∧
      ¬ afterTrade.engine.Holds ("acct", "stop-2") := by
  refine ⟨⟨twoStops, rfl, stopOrder "stop-2", ?_, ?_, ?_⟩, ?_, ?_⟩
  · decide +kernel
  · decide +kernel
  · decide +kernel
  · decide +kernel
  · unfold Engine.Holds
    decide +kernel

end Exchanges.Execution
