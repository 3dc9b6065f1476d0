import Exchanges.Platform.Node

/-!
The node's reconciliation of one instrument, interleaved with everything else.

`reconcileInstrument` fetches the venue's open orders, applies them, fetches and
applies fills and positions, and then closes the open orders of the cache that
were not among those fetched. Other parts of the node run in between: orders
are accepted, fills arrive, the emulator takes and releases orders. The pass is
a state machine here. Its stage says what it will do next, a move of it is one
call of the reconciler, and between two moves the world may become any other.

A pass that closes an order does not ask whether the order still is live. The
theorem states exactly which moves close a live one.
-/

namespace Exchanges.Platform

open Exchanges.Lib Exchanges.Model Exchanges.Cache
open Exchanges.Account (AcceptedAs ClosedWith Listed applyOrder checkRepair closing missingOrders
  missingPositionReports afterEvent outcome written)

set_option linter.unusedSectionVars false

/-! ### The pass -/

/-- The node, and what its cache should agree with: the orders that are open at
the venue and those that the emulator holds. -/
structure World where
  node : Node
  venueOrders : List OrderStatusReport
  emulated : List (AccountID × ClientOrderID)
  reachable : Reachable node.cache

/-- What a pass does next. The reports are those that were fetched. -/
inductive Stage where
  | fetchOrders
  | fetchFills (reports : List OrderStatusReport)
  | fetchPositions (reports : List OrderStatusReport)
  | missingPositions (reports : List OrderStatusReport) (positions : List PositionStatusReport)
  /-- Apply the events, one by one. -/
  | applying (events : List ExecutionEvent) (next : Stage)
  /-- Let the lists of an order go on, then announce a change of position. -/
  | progressing (order : Option OrderStatusReport) (lifecycle : Option PositionLifecycleEvent)
      (next : Stage)
  | repairing (reports : List OrderStatusReport)
  /-- Close the orders, one by one; some were closed already. -/
  | closing (now : Time) (orders generated : List OrderStatusReport)
  | publishing (reports : List OrderStatusReport)
  | done
  | failed (err : Err)

def Stage.orFailed (result : Except Err Unit) (stage : Stage) : Stage :=
  match result with
  | .ok () => stage
  | .error err => .failed err

/-- A move of the pass, an answer that it waits for, or a change that others
make. -/
inductive Action where
  /-- The client lists the venue's open orders. -/
  | list
  /-- The client answers `ErrNotSupported`. -/
  | unsupported
  | fills (fills : List FillReport)
  /-- No snapshot if the client does not generate any. -/
  | positions (snapshot : Option (List PositionStatusReport))
  | next (clock : Time)
  /-- A call fails: a client refuses, or the context is cancelled. -/
  | fail (err : Err)
  | others (world : World)

section

variable [DecimalPackage]

def World.cache (w : World) : Cache := w.node.cache

/-- Run a program of the node. -/
def World.run (w : World) (p : Prog Node Err Unit)
    (hp : Prog.Keeps (fun n : Node => Reachable n.cache) p) : Except Err Unit × World :=
  ((p.run w.node).1, { w with node := (p.run w.node).2, reachable := hp w.node w.reachable })

theorem keeps_reachable_closing (r : OrderStatusReport) :
    Prog.Keeps (fun n : Node => Reachable n.cache) (Node.onCache (applyOrder r)) :=
  Node.keeps_onCache Account.keeps_reachable_applyOrder

variable (a : AccountID) (inst : InstrumentID)

/-- One move of the pass. -/
def advance (clock : Time) (w : World) : Stage → World × Stage
  | .applying [] next => (w, next)
  | .applying (event :: events) next =>
    let lifecycle :=
      if event.order.isSome then none else Node.derivePositionLifecycle w.cache event
    let (result, w) := w.run (Node.applyEvent event) Node.keeps_reachable_applyEvent
    (w, .orFailed result
      (.progressing (Node.progressed w.cache event) lifecycle (.applying events next)))
  | .progressing _ lifecycle next =>
    let (result, w) :=
      w.run (Node.applyLifecycle lifecycle) (Node.keeps_applyLifecycle lifecycle)
    (w, .orFailed result next)
  | .missingPositions reports positions =>
    match missingPositionReports clock a inst positions w.cache with
    | .ok missing => (w, .applying (missing.map .ofPosition) (.repairing reports))
    | .error err => (w, .failed err)
  | .repairing reports =>
    match checkRepair a inst .canceled with
    | .ok () => (w, .closing clock (missingOrders w.cache a inst reports) [])
    | .error err => (w, .failed err)
  | .closing now (order :: orders) generated =>
    let report := Account.closing .canceled now order
    let (result, w) := w.run (Node.onCache (applyOrder report)) (keeps_reachable_closing report)
    (w, .orFailed result (.closing now orders (generated ++ [report])))
  | .closing _ [] generated => (w, .publishing generated)
  | .publishing (report :: reports) =>
    let (_, w) := w.run (Node.publish (.ofOrder report)) Node.keeps_publish
    (w, .progressing (some report) none (.publishing reports))
  | .publishing [] => (w, .done)
  | stage => (w, stage)

/-- An answer that the stage does not wait for changes nothing. -/
def perform (state : World × Stage) : Action → World × Stage
  | .list =>
    match state.2 with
    | .fetchOrders =>
      let reports := state.1.venueOrders.filter fun report =>
        decide (report.accountID = a ∧ report.instrumentID = inst)
      (state.1, .applying (reports.map .ofOrder) (.fetchFills reports))
    | _ => state
  | .unsupported =>
    match state.2 with
    | .fetchOrders => (state.1, .fetchFills [])
    | _ => state
  | .fills fills =>
    match state.2 with
    | .fetchFills reports =>
      (state.1, .applying (fills.map .ofFill) (.fetchPositions reports))
    | _ => state
  | .positions snapshot =>
    match state.2, snapshot with
    | .fetchPositions reports, some positions =>
      (state.1, .applying (positions.map .ofPosition) (.missingPositions reports positions))
    | .fetchPositions reports, none => (state.1, .repairing reports)
    | _, _ => state
  | .next clock => advance a inst clock state.1 state.2
  | .fail err => (state.1, .failed err)
  | .others world => (world, state.2)

/-- A pass and what happens during it. -/
def afterActions (w : World) (actions : List Action) : World × Stage :=
  actions.foldl (perform a inst) (w, .fetchOrders)

/-! ### Closing live orders -/

/-- The order is open at the venue, under any of its ids, or held by the
emulator. -/
def Live (w : World) (e : OrderStatusReport) : Prop :=
  Listed e.accountID e.instrumentID w.venueOrders e ∨
    (e.accountID, e.clientOrderID) ∈ w.emulated

instance (w : World) (e : OrderStatusReport) : Decidable (Live w e) := by
  unfold Live Listed; infer_instance

/-- Between the two worlds a live order was marked as closed. -/
def ClosesLive (w w' : World) : Prop :=
  ∃ b i e, w'.cache.order b i = some e ∧ e.status.isTerminal = true ∧ Live w e ∧
    ∀ e₀, w.cache.order b i = some e₀ → e₀.status.isTerminal = false

/-- The event that the next move of the pass applies. -/
def Stage.event : Stage → Option ExecutionEvent
  | .applying (event :: _) _ => some event
  | .closing now (order :: _) _ => some (.ofOrder (Account.closing .canceled now order))
  | _ => none

/-- When an event closes no live order: an accepted report of a live order that
is not closed leaves it open, with the stored fills, and so does a new fill. -/
structure SparesLive (w : World) (event : ExecutionEvent) : Prop where
  report : ∀ r s, event = .ofOrder r → r.WellFormed → Live w r →
    (∀ e, w.cache.order r.accountID r.orderID = some e → e.status.isTerminal = false) →
    AcceptedAs (w.cache.order r.accountID r.orderID) r s →
    ¬ ClosedWith r s (w.cache.fillsForOrder r.accountID r.orderID)
  fill : ∀ f o, event = .ofFill f → f.WellFormed → w.cache.fills.get (fillKey f) = none →
    w.cache.order f.accountID f.orderID = some o → Live w o → o.status.isTerminal = false →
    ¬ (0 < o.quantity ∧ o.quantity ≤ o.filledQuantity + f.quantity)

variable {a inst} {w w' : World} {event : ExecutionEvent} {o r e : OrderStatusReport}

theorem live_version (h : Account.Version o e) : Live w e ↔ Live w o := by
  rw [Live, Live, Listed, Listed, h.accountID, h.instrumentID, h.orderID, h.clientOrderID]
  simp only [SharesID, h.clientOrderID, h.venueOrderID]

theorem not_closesLive_of_orders (h : w'.cache.orders = w.cache.orders) : ¬ ClosesLive w w' := by
  rintro ⟨b, i, e, he, hterminal, -, hbefore⟩
  rw [Cache.order, h] at he
  simp [hbefore e he] at hterminal

/-- Only the order that an event writes can be closed by it. -/
theorem closesLive_iff (h : w'.cache.orders = (afterEvent w.cache event).orders) :
    ClosesLive w w' ↔ ∃ o, written w.cache event = some o ∧ o.status.isTerminal = true ∧
      Live w o ∧ ∀ e, w.cache.order o.accountID o.orderID = some e →
        e.status.isTerminal = false := by
  have hindexed := w.reachable.consistent.orders
  have horders := Account.orders_afterEvent w.reachable event
  cases hw : written w.cache event with
  | none =>
    refine iff_of_false ?_ (by simp)
    rw [show written w.node.cache event = none from hw] at horders
    exact not_closesLive_of_orders (h.trans horders)
  | some o =>
    rw [show written w.node.cache event = some o from hw] at horders
    constructor
    · rintro ⟨b, i, e, he, hterminal, hlive, hbefore⟩
      rw [Cache.order, h] at he
      rw [show (afterEvent w.cache event).orders = _ from horders] at he
      by_cases hkey : (b, i) = (o.accountID, o.orderID)
      · obtain ⟨rfl, rfl⟩ := Prod.mk.inj hkey
        rw [order_storeOrder_self] at he
        obtain rfl := Option.some.inj he
        exact ⟨o, rfl, hterminal, hlive, hbefore⟩
      · have hsame := ((order_storeOrder_other hindexed hkey).mp he).1
        simp [hbefore e hsame] at hterminal
    · rintro ⟨_, ⟨⟩, hterminal, hlive, hbefore⟩
      refine ⟨o.accountID, o.orderID, o, ?_, hterminal, hlive, hbefore⟩
      rw [Cache.order, h]
      exact (congrArg (fun m => OrdMap.get m (o.accountID, o.orderID)) horders).trans
        (order_storeOrder_self w.cache o)

theorem closesLive_ofOrder (hr : r.WellFormed)
    (h : w'.cache.orders = (afterEvent w.cache (.ofOrder r)).orders) :
    ¬ ClosesLive w w' ↔ ∀ s, Live w r →
      (∀ e, w.cache.order r.accountID r.orderID = some e → e.status.isTerminal = false) →
      AcceptedAs (w.cache.order r.accountID r.orderID) r s →
      ¬ ClosedWith r s (w.cache.fillsForOrder r.accountID r.orderID) := by
  rw [closesLive_iff h]
  constructor
  · intro hnot s hlive hbefore hs hclosed
    have hids := Account.version_outcome w.cache r s
    refine hnot ⟨outcome w.cache r s, (Account.written_ofOrder hr).mpr ⟨s, hs, rfl⟩,
      (Account.isTerminal_outcome w.reachable hr (hs.ne_unset hr)).mpr hclosed,
      (live_version hids).mpr hlive, ?_⟩
    rwa [hids.accountID, hids.orderID]
  · rintro hspares ⟨o, ho, hterminal, hlive, hbefore⟩
    obtain ⟨s, hs, rfl⟩ := (Account.written_ofOrder hr).mp ho
    have hids := Account.version_outcome w.cache r s
    rw [hids.accountID, hids.orderID] at hbefore
    exact hspares s ((live_version hids).mp hlive) hbefore hs
      ((Account.isTerminal_outcome w.reachable hr (hs.ne_unset hr)).mp hterminal)

theorem closesLive_ofFill {f : FillReport} (hf : f.WellFormed)
    (h : w'.cache.orders = (afterEvent w.cache (.ofFill f)).orders) :
    ¬ ClosesLive w w' ↔ ∀ o, w.cache.fills.get (fillKey f) = none →
      w.cache.order f.accountID f.orderID = some o → Live w o → o.status.isTerminal = false →
      ¬ (0 < o.quantity ∧ o.quantity ≤ o.filledQuantity + f.quantity) := by
  rw [closesLive_iff h]
  have hids := fun o => Account.version_applyFillToOrder o f
  constructor
  · intro hnot o hget ho hlive hopen hfull
    obtain ⟨ha, hi, -⟩ := w.reachable.consistent.orders.keyed _ _ o ho
    have hwf := w.reachable.validated.orders _ o ho
    refine hnot ⟨_, (Account.written_ofFill hf).mpr ⟨hget, o, ho, rfl⟩,
      (Account.isTerminal_applyFillToOrder hwf hf).mpr hfull, (live_version (hids o)).mpr hlive, ?_⟩
    intro e he
    rw [(hids o).accountID, (hids o).orderID, ha, hi, ho] at he
    rw [← Option.some.inj he]
    exact hopen
  · rintro hspares ⟨o', ho', hterminal, hlive, hbefore⟩
    obtain ⟨hget, o, ho, rfl⟩ := (Account.written_ofFill hf).mp ho'
    obtain ⟨ha, hi, -⟩ := w.reachable.consistent.orders.keyed _ _ o ho
    have hwf := w.reachable.validated.orders _ o ho
    rw [(hids o).accountID, (hids o).orderID, ha, hi] at hbefore
    exact hspares o hget ho ((live_version (hids o)).mp hlive) (hbefore o ho)
      ((Account.isTerminal_applyFillToOrder hwf hf).mp hterminal)

/-- An event closes no live order exactly when it spares them. -/
theorem sparesLive_iff (h : w'.cache.orders = (afterEvent w.cache event).orders) :
    ¬ ClosesLive w w' ↔ SparesLive w event := by
  cases Account.kind w.cache event with
  | @order r hr =>
    rw [closesLive_ofOrder hr h]
    constructor
    · intro hspares
      refine ⟨?_, fun f o heq => by cases heq⟩
      rintro _ s ⟨⟩ -
      exact hspares s
    · exact fun hspares s => hspares.report r s rfl hr
  | @fill f hf =>
    rw [closesLive_ofFill hf h]
    constructor
    · intro hspares
      refine ⟨fun r s heq => (by cases heq), ?_⟩
      rintro _ o ⟨⟩ -
      exact hspares o
    · exact fun hspares o => hspares.fill f o rfl hf
  | other hnil hsame =>
    have hwritten : ∀ o, written w.cache event ≠ some o := by simp [written, hnil]
    refine iff_of_true (not_closesLive_of_orders (h.trans hsame.1)) ⟨?_, ?_⟩
    · rintro r s rfl hr - - hs
      exact absurd ((Account.written_ofOrder hr).mpr ⟨s, hs, rfl⟩) (hwritten _)
    · rintro f o rfl hf hget ho
      exact absurd ((Account.written_ofFill hf).mpr ⟨hget, o, ho, rfl⟩) (hwritten _)

/-! ### The moves of the pass -/

/-- Orders that wait to be closed were taken from the cache. -/
def Stage.Valid : Stage → Prop
  | .applying _ next => next.Valid
  | .progressing _ _ next => next.Valid
  | .closing _ orders _ => ∀ e ∈ orders, e.WellFormed
  | _ => True

theorem valid_orFailed {result : Except Err Unit} {stage : Stage} (h : stage.Valid) :
    (Stage.orFailed result stage).Valid := by
  cases result with
  | ok u => exact h
  | error err => trivial

theorem missingOrders_wellFormed (w : World) (reports : List OrderStatusReport) :
    ∀ e ∈ missingOrders w.cache a inst reports, e.WellFormed := by
  intro e he
  have hstored := ((Account.mem_missingOrders w.reachable.consistent.orders).mp he).1
  exact w.reachable.validated.orders _ e hstored

theorem valid_advance (clock : Time) (w : World) {stage : Stage} (h : stage.Valid) :
    (advance a inst clock w stage).2.Valid := by
  match stage with
  | .applying [] next => exact h
  | .applying (event :: events) next => exact valid_orFailed h
  | .progressing order lifecycle next => exact valid_orFailed h
  | .missingPositions reports positions =>
    simp only [advance]
    split <;> trivial
  | .repairing reports =>
    simp only [advance]
    split
    · exact missingOrders_wellFormed w reports
    · trivial
  | .closing now [] generated => trivial
  | .closing now (order :: orders) generated =>
    exact valid_orFailed fun e he => h e (List.mem_cons_of_mem order he)
  | .publishing [] => trivial
  | .publishing (report :: reports) => trivial
  | .fetchOrders => trivial
  | .fetchFills reports => trivial
  | .fetchPositions reports => trivial
  | .done => trivial
  | .failed err => trivial

theorem valid_perform {state : World × Stage} (h : state.2.Valid) (action : Action) :
    (perform a inst state action).2.Valid := by
  obtain ⟨w, stage⟩ := state
  cases action with
  | next clock => exact valid_advance clock w h
  | fail err => trivial
  | others world => exact h
  | list => cases stage <;> trivial
  | unsupported => cases stage <;> trivial
  | fills fills => cases stage <;> trivial
  | positions snapshot => cases stage <;> cases snapshot <;> trivial

theorem valid_afterActions (w : World) (actions : List Action) :
    (afterActions a inst w actions).2.Valid :=
  List.foldlRecOn actions (perform a inst) (motive := fun state => state.2.Valid) trivial
    fun _ h action _ => valid_perform h action

/-- A move that applies an event leaves the orders that the event leaves. -/
theorem orders_advance_applying (clock : Time) (w : World) (event : ExecutionEvent)
    (events : List ExecutionEvent) (next : Stage) :
    (advance a inst clock w (.applying (event :: events) next)).1.cache.orders =
      (afterEvent w.cache event).orders :=
  Node.orders_applyEvent w.node event

theorem orders_advance_closing (clock now : Time) (w : World) (generated : List OrderStatusReport)
    {order : OrderStatusReport} {orders : List OrderStatusReport} (hwf : order.WellFormed) :
    (advance a inst clock w (.closing now (order :: orders) generated)).1.cache.orders =
      (afterEvent w.cache (.ofOrder (Account.closing .canceled now order))).orders := by
  have hclosing : (Account.closing .canceled now order).WellFormed :=
    Account.closing_wellFormed now hwf (by simp)
  rw [afterEvent, Account.run_apply_ofOrder hclosing]
  rfl

theorem orders_advance_event (clock : Time) (w : World) {stage : Stage} (hvalid : stage.Valid)
    (hevent : stage.event = some event) :
    (advance a inst clock w stage).1.cache.orders = (afterEvent w.cache event).orders := by
  cases stage with
  | applying events next =>
    cases events with
    | nil => simp [Stage.event] at hevent
    | cons event' events =>
      obtain rfl : event' = event := by simpa [Stage.event] using hevent
      exact orders_advance_applying clock w event' events next
  | closing now orders generated =>
    cases orders with
    | nil => simp [Stage.event] at hevent
    | cons order orders =>
      obtain rfl := Option.some.inj hevent
      exact orders_advance_closing clock now w generated (hvalid order List.mem_cons_self)
  | _ => simp [Stage.event] at hevent

/-- Every other move leaves the orders alone. -/
theorem orders_advance_other (clock : Time) (w : World) {stage : Stage}
    (hevent : stage.event = none) :
    (advance a inst clock w stage).1.cache.orders = w.cache.orders := by
  cases stage with
  | applying events next =>
    cases events with
    | nil => rfl
    | cons event events => simp [Stage.event] at hevent
  | closing now orders generated =>
    cases orders with
    | nil => rfl
    | cons order orders => simp [Stage.event] at hevent
  | progressing order lifecycle next =>
    exact Node.keeps_applyLifecycle (I := fun c => c.orders = w.cache.orders) lifecycle w.node rfl
  | missingPositions reports positions =>
    simp only [advance]
    split <;> rfl
  | repairing reports =>
    simp only [advance]
    split <;> rfl
  | publishing reports => cases reports <;> rfl
  | _ => rfl

/-! ### A pass without interference -/

/-- The stage that the result of a repair leads to. -/
def Stage.ofRepair (result : Except (List OrderStatusReport × Err) (List OrderStatusReport)) :
    Stage :=
  match result with
  | .ok generated => .publishing generated
  | .error (_, err) => .failed err

theorem iterate_failed (clock : Time) (w : World) (err : Err) (k : ℕ) :
    (fun state : World × Stage => advance a inst clock state.1 state.2)^[k] (w, .failed err) =
      (w, .failed err) := by
  induction k with
  | zero => rfl
  | succ k ih =>
    rw [Function.iterate_succ_apply]
    exact ih

/-- Undisturbed, the moves that close orders do what the loop does. -/
theorem iterate_closing (clock now : Time) :
    ∀ (orders generated : List OrderStatusReport) (w : World), ∃ w',
      (fun state : World × Stage => advance a inst clock state.1 state.2)^[orders.length + 1]
          (w, .closing now orders generated) =
        (w', .ofRepair ((Account.closeOrders (fun _ => false) .canceled now generated orders).run
          w.cache).1) ∧
      w'.cache = ((Account.closeOrders (fun _ => false) .canceled now generated orders).run
        w.cache).2 := by
  intro orders
  induction orders with
  | nil => exact fun generated w => ⟨w, rfl, rfl⟩
  | cons order orders ih =>
    intro generated w
    have hloop : Account.closeOrders (fun _ => false) .canceled now generated (order :: orders) =
        Prog.mapError (generated, ·) (applyOrder (Account.closing .canceled now order)) >>=
          fun _ => Account.closeOrders (fun _ => false) .canceled now
            (generated ++ [Account.closing .canceled now order]) orders := rfl
    obtain ⟨w₁, hw₁, hcache⟩ : ∃ w₁ : World,
        advance a inst clock w (.closing now (order :: orders) generated) =
          (w₁, .orFailed ((applyOrder (Account.closing .canceled now order)).run w.cache).1
            (.closing now orders (generated ++ [Account.closing .canceled now order]))) ∧
        w₁.cache = ((applyOrder (Account.closing .canceled now order)).run w.cache).2 :=
      ⟨_, rfl, rfl⟩
    rw [List.length_cons, Function.iterate_succ_apply]
    dsimp only
    rw [hw₁, hloop]
    match hrun : (applyOrder (Account.closing .canceled now order)).run w.cache with
    | (.ok (), c₁) =>
      rw [hrun] at hcache
      obtain ⟨w', hiter, hw'⟩ :=
        ih (generated ++ [Account.closing .canceled now order]) w₁
      rw [Prog.run_bind_ok (Prog.run_mapError_ok hrun)]
      rw [hcache] at hiter hw'
      exact ⟨w', hiter, hw'⟩
    | (.error err, c₁) =>
      rw [hrun] at hcache
      rw [Prog.run_bind_error (Prog.run_mapError_error hrun)]
      exact ⟨w₁, iterate_failed clock w₁ err _, hcache⟩

/-- Undisturbed, the repair stage of the pass is `reconcileMissingOpenOrders`. -/
theorem iterate_repairing (clock : Time) (w : World) (reports : List OrderStatusReport)
    (hchecks : checkRepair a inst .canceled = .ok ()) :
    ∃ k w', (fun state : World × Stage => advance a inst clock state.1 state.2)^[k]
        (w, .repairing reports) =
      (w', .ofRepair
        ((Account.reconcileMissingOpenOrders clock a inst reports .canceled).run w.cache).1) ∧
      w'.cache =
        ((Account.reconcileMissingOpenOrders clock a inst reports .canceled).run w.cache).2 := by
  have hstart : advance a inst clock w (.repairing reports) =
      (w, .closing clock (missingOrders w.cache a inst reports) []) := by
    simp only [advance, hchecks]
  obtain ⟨w', hiter, hcache⟩ :=
    @iterate_closing _ a inst clock clock (missingOrders w.cache a inst reports) [] w
  rw [Account.run_reconcileMissingOpenOrders_eq clock reports w.cache hchecks]
  refine ⟨(missingOrders w.cache a inst reports).length + 1 + 1, w', ?_, hcache⟩
  rw [Function.iterate_succ_apply]
  dsimp only
  rw [hstart, hiter]

/-! ### Whole passes -/

/-- What the pass itself does, as opposed to others. -/
def Action.isOthers : Action → Bool
  | .others _ => true
  | _ => false

/-- When the pass closes no live order by an action. -/
def Spares (state : World × Stage) : Action → Prop
  | .next _ => ∀ event, state.2.event = some event → SparesLive state.1 event
  | _ => True

theorem spares_iff {state : World × Stage} (hvalid : state.2.Valid) {action : Action}
    (hpass : action.isOthers = false) :
    ¬ ClosesLive state.1 (perform a inst state action).1 ↔ Spares state action := by
  obtain ⟨w, stage⟩ := state
  have hsame : ∀ {w' : World}, w' = w → (¬ ClosesLive w w' ↔ True) := by
    rintro _ rfl
    exact iff_of_true (not_closesLive_of_orders rfl) trivial
  cases action with
  | next clock =>
    cases hevent : stage.event with
    | none =>
      refine iff_of_true (not_closesLive_of_orders (orders_advance_other clock w hevent)) ?_
      intro event h
      cases hevent.symm.trans h
    | some event =>
      refine (sparesLive_iff (orders_advance_event clock w hvalid hevent)).trans ?_
      constructor
      · intro h event' hevent'
        cases hevent.symm.trans hevent'
        exact h
      · exact fun h => h event hevent
  | others world => cases hpass
  | fail err => exact hsame rfl
  | list => exact hsame (by cases stage <;> rfl)
  | unsupported => exact hsame (by cases stage <;> rfl)
  | fills fills => exact hsame (by cases stage <;> rfl)
  | positions snapshot => exact hsame (by cases stage <;> cases snapshot <;> rfl)

/-- In every pass, whatever others do in between, no move marks a live order as
closed exactly when every move spares the live orders. -/
theorem reconcile_spares_iff (a : AccountID) (inst : InstrumentID) (w : World)
    (actions : List Action) :
    (∀ pre action, pre ++ [action] <+: actions → action.isOthers = false →
        ¬ ClosesLive (afterActions a inst w pre).1
          (afterActions a inst w (pre ++ [action])).1) ↔
      ∀ pre action, pre ++ [action] <+: actions → Spares (afterActions a inst w pre) action := by
  refine forall_congr' fun pre => forall_congr' fun action => forall_congr' fun _ => ?_
  rw [show afterActions a inst w (pre ++ [action]) =
    perform a inst (afterActions a inst w pre) action from List.foldl_concat ..]
  cases hpass : action.isOthers with
  | true =>
    refine iff_of_true (by simp) ?_
    cases action with
    | others world => trivial
    | _ => cases hpass
  | false =>
    rw [← spares_iff (valid_afterActions w pre) hpass]
    exact ⟨fun h => h rfl, fun h _ => h⟩

end

/-- A world whose cache has seen one order report. -/
def worldWith (r : OrderStatusReport) (venueOrders : List OrderStatusReport)
    (emulated : List (AccountID × ClientOrderID)) : World :=
  let _ : DecimalPackage := exactDecimals
  { node := { portfolio := Portfolio.new (afterEvent Cache.new (.ofOrder r)) }
    venueOrders := venueOrders
    emulated := emulated
    reachable := Account.reachable_afterEvent .new (.ofOrder r) }

def emptyWorld : World := { node := {}, venueOrders := [], emulated := [], reachable := .new }

theorem iterate_repairing_accepted :
    let w := worldWith Account.sampleReport [] []
    let repair := (@Account.reconcileMissingOpenOrders exactDecimals 5 "acct" Account.samplePerp []
      .canceled).run w.cache
    ∃ k w', (fun state : World × Stage =>
        @advance exactDecimals "acct" Account.samplePerp 5 state.1 state.2)^[k]
          (w, .repairing []) = (w', .ofRepair repair.1) ∧ w'.cache = repair.2 :=
  @iterate_repairing exactDecimals "acct" Account.samplePerp 5 _ [] (by decide +kernel)

/-- An order that the emulator holds. -/
def emulatedOrder : OrderStatusReport :=
  { Account.sampleReport with
    orderID := "emulated-client-1", clientOrderID := "client-1", status := .emulated }

/-- The moves from the fetched orders to the repair, without fills and
positions. -/
def toRepair : List Action := [.next 5, .fills [], .next 5, .positions none, .next 5]

/-- An accepted order is closed when the client cannot list orders, and when it
was accepted after the list was made. An emulated order is closed although the
list is complete. -/
theorem repair_closes_live :
    let after := @afterActions exactDecimals "acct" Account.samplePerp
    let accepted := worldWith Account.sampleReport [Account.sampleReport] []
    let emulated := worldWith emulatedOrder [] [("acct", "client-1")]
    ClosesLive (after accepted (.unsupported :: toRepair)).1
        (after accepted (.unsupported :: toRepair ++ [.next 5])).1 ∧
      ClosesLive (after emptyWorld (.list :: .others accepted :: toRepair)).1
        (after emptyWorld (.list :: .others accepted :: toRepair ++ [.next 5])).1 ∧
      ClosesLive (after emulated (.list :: toRepair)).1
        (after emulated (.list :: toRepair ++ [.next 5])).1 := by
  have hcloses : ∀ (w w' : World) (i : OrderID),
      (w'.cache.order "acct" i).any (fun e => e.status.isTerminal && decide (Live w e)) = true →
      (w.cache.order "acct" i).all (fun e => !e.status.isTerminal) = true →
      ClosesLive w w' := by
    intro w w' i hafter hbefore
    cases he : w'.cache.order "acct" i with
    | none => simp [he] at hafter
    | some e =>
      rw [he, Option.any_some, Bool.and_eq_true, decide_eq_true_eq] at hafter
      refine ⟨"acct", i, e, he, hafter.1, hafter.2, fun e₀ he₀ => ?_⟩
      simpa [he₀] using hbefore
  exact ⟨hcloses _ _ "order-1" (by decide +kernel) (by decide +kernel),
    hcloses _ _ "order-1" (by decide +kernel) (by decide +kernel),
    hcloses _ _ "emulated-client-1" (by decide +kernel) (by decide +kernel)⟩

end Exchanges.Platform
