import Exchanges.Execution.Engine

/-!
Canceling many orders at once: `BatchCancelOrders` and `CancelAllOrders` of the engine.

A client may have a request for a whole batch, one for everything, or neither. Such a
request is answered with reports and an error at the same time, and so are the engine's
own methods; an `Answer` has both, where the error is the list of what was joined.

The engine first cancels what its emulator holds and then asks the client. Beside the
application a `Canceling` records what happens in fact: every report about a canceled
order, from the emulator or from a client, and every error. The question is whether the
answer that the engine returns has all of it.
-/

namespace Exchanges.Execution

open Exchanges.Lib Exchanges.Model

set_option linter.unusedSectionVars false

/-! ### Answers -/

/-- Reports, and the errors that were joined; none is `nil`. -/
@[ext] structure Answer where
  reports : List OrderStatusReport := []
  errors : List Err := []
  deriving DecidableEq

namespace Answer

instance : Append Answer := ⟨fun a b => ⟨a.reports ++ b.reports, a.errors ++ b.errors⟩⟩

@[simp] theorem reports_append (a b : Answer) : (a ++ b).reports = a.reports ++ b.reports := rfl

@[simp] theorem errors_append (a b : Answer) : (a ++ b).errors = a.errors ++ b.errors := rfl

theorem append_nil (a : Answer) : a ++ {} = a :=
  Answer.ext (List.append_nil _) (List.append_nil _)

/-- Every report and every error of `log`, as often as it occurs there. -/
def Accounts (answer log : Answer) : Prop :=
  log.reports.Subperm answer.reports ∧ log.errors.Subperm answer.errors

theorem append_eq_nil {a b : Answer} (h : a ++ b = {}) : a = {} ∧ b = {} := by
  obtain ⟨ha, hb⟩ := List.append_eq_nil_iff.mp (congrArg reports h)
  obtain ⟨ha', hb'⟩ := List.append_eq_nil_iff.mp (congrArg errors h)
  exact ⟨Answer.ext ha ha', Answer.ext hb hb'⟩

end Answer

/-- An application with the requests about several orders that the client of an account
may have. -/
structure BatchHost (σ : Type) extends Host σ where
  setEngine_engine : ∀ s, setEngine (engine s) s = s
  /-- `BatchCanceler`. -/
  batch : AccountID → Option (BatchCancelOrders → σ → Answer × σ) := fun _ => none
  /-- `CancelAllCanceler`. -/
  all : AccountID → Option (CancelAllOrders → σ → Answer × σ) := fun _ => none

/-- The application with a record of what was canceled and what failed. -/
structure Canceling (σ : Type) where
  app : σ
  log : Answer := {}
  /-- The reports about single orders, each with the engine that it finds. -/
  arrived : List (OrderStatusReport × Engine) := []

namespace Canceling

variable {σ : Type}

def fails (err : Err) (s : Canceling σ) : Canceling σ :=
  { s with log := s.log ++ { errors := [err] } }

def arrives (entry : OrderStatusReport × Engine) (s : Canceling σ) : Canceling σ :=
  { s with
    log := s.log ++ { reports := [entry.1] }
    arrived := s.arrived ++ [entry] }

def onApp {α : Type} (p : Prog σ Err α) : Prog (Canceling σ) Err α :=
  p.zoom (·.app) fun app s => { s with app := app }

end Canceling

/-- The command that the batch makes of one of its members. -/
def fillBatchCancel (batch : BatchCancelOrders) (cancel : CancelOrder) : CancelOrder :=
  { cancel with
    metadata := cancel.metadata.withDefaults batch.metadata
    accountID := orDefault cancel.accountID batch.accountID
    instrumentID :=
      if cancel.instrumentID = {} then batch.instrumentID else cancel.instrumentID }

/-- The report of the emulated order that a command names, if the emulator holds it. -/
def heldReport (e : Engine) (cancel : CancelOrder) : Option OrderStatusReport :=
  match e.emulator with
  | none => none
  | some em =>
    (Engine.emulatedOrderReport e.cache cancel.accountID cancel.orderID
      cancel.clientOrderID).filter fun report =>
        (em.orders.get (Engine.reportKey report)).isSome

/-- What the emulator tells the manager when it cancels an order, with the engine at that
moment: the order is no longer held. -/
def locally (e : Engine) (cancel : CancelOrder) : Option (OrderStatusReport × Engine) :=
  (heldReport e cancel).map fun report =>
    ({ report with
        metadata := cancel.metadata.withDefaults report.metadata
        status := .canceled
        leavesQuantity := 0 },
      { e with
        emulator := e.emulator.map fun em => em.drop (Engine.reportKey report)
        submits := e.submits.delete report.clientOrderID })

/-! ### The engine's methods -/

namespace BatchHost

open Canceling

variable [DecimalPackage] {σ : Type} (host : BatchHost σ) (m : Manager)

def recordLocally (cancel : CancelOrder) (s : Canceling σ) : Canceling σ :=
  match cancel.validate, locally (host.engine s.app) cancel with
  | .ok (), some entry => s.arrives entry
  | _, _ => s

/-- `cancelEmulatedOrder`, recorded. -/
def recordedCancelEmulated (cancel : CancelOrder) :
    Prog (Canceling σ) Err (Option OrderStatusReport) := do
  Prog.modify (host.recordLocally cancel)
  onApp (host.cancelEmulatedOrder m cancel)

/-- `CancelOrder`, recorded. -/
def recordedCancel (cancel : CancelOrder) : Prog (Canceling σ) Err OrderStatusReport := do
  Prog.lift cancel.validate
  let answer ← host.recordedCancelEmulated m cancel
  match answer with
  | some report => pure report
  | none => do
    onApp (host.client cancel.accountID)
    let report ← onApp (host.call (.cancel cancel))
    Prog.modify fun s => s.arrives (report, host.engine s.app)
    onApp (host.onEngine (Engine.applyReport m report))
    pure report

/-- The first loop of `BatchCancelOrders`: what the emulator does not hold remains. -/
def cancelEmulatedOrders (batch : BatchCancelOrders) :
    List CancelOrder → Canceling σ → (Answer × List CancelOrder) × Canceling σ
  | [], s => (({}, []), s)
  | cancel :: cancels, s =>
    match (host.recordedCancelEmulated m (fillBatchCancel batch cancel)).run s with
    | (.error err, s) =>
      let ((answer, remaining), s) := cancelEmulatedOrders batch cancels (s.fails err)
      (({ errors := [err] } ++ answer, remaining), s)
    | (.ok (some report), s) =>
      let ((answer, remaining), s) := cancelEmulatedOrders batch cancels s
      (({ reports := [report] } ++ answer, remaining), s)
    | (.ok none, s) =>
      let ((answer, remaining), s) := cancelEmulatedOrders batch cancels s
      ((answer, fillBatchCancel batch cancel :: remaining), s)

/-- The second loop of `BatchCancelOrders`, for a client that takes single orders only. -/
def cancelEach : List CancelOrder → Canceling σ → Answer × Canceling σ
  | [], s => ({}, s)
  | cancel :: cancels, s =>
    match (host.recordedCancel m cancel).run s with
    | (.error err, s) =>
      let (answer, s) := cancelEach cancels (s.fails err)
      ({ errors := [err] } ++ answer, s)
    | (.ok report, s) =>
      let (answer, s) := cancelEach cancels s
      ({ reports := [report] } ++ answer, s)

/-- A client's answer for several orders: its reports are applied unless it has an error. -/
def takeAnswer (venue : Answer) (s : Canceling σ) : Answer × Canceling σ :=
  let s := { s with log := s.log ++ venue }
  if venue.errors = [] then
    match (onApp (host.onEngine (Prog.forEach (Engine.applyReport m) venue.reports))).run s with
    | (.error err, s) => (venue ++ { errors := [err] }, s.fails err)
    | (.ok (), s) => (venue, s)
  else (venue, s)

def clientNotFound (accountID : AccountID) : Err := ⟨.clientNotFound, "account", [accountID]⟩

/-- What `BatchCancelOrders` does with the orders that the emulator does not hold. -/
def cancelRemaining (batch : BatchCancelOrders) (s : Canceling σ) : Answer × Canceling σ :=
  if host.connected batch.accountID then
    match host.batch batch.accountID with
    | some request =>
      let (venue, app) := request batch s.app
      host.takeAnswer m venue { s with app := app }
    | none => host.cancelEach m batch.cancels s
  else
    ({ errors := [clientNotFound batch.accountID] }, s.fails (clientNotFound batch.accountID))

def batchCancelOrders (batch : BatchCancelOrders) (s : Canceling σ) : Answer × Canceling σ :=
  match batch.validate with
  | .error err => ({ errors := [err] }, s.fails err)
  | .ok () =>
    let ((answer, remaining), s) := host.cancelEmulatedOrders m batch batch.cancels s
    if remaining = [] then (answer, s)
    else
      let (rest, s) := host.cancelRemaining m { batch with cancels := remaining } s
      (answer ++ rest, s)

end BatchHost

/-- The cancels for those open orders that match and that `select` picks. -/
def matchingBatch (c : Cache) (cancelAll : CancelAllOrders)
    (select : OrderStatusReport → Bool) : BatchCancelOrders where
  metadata := cancelAll.metadata
  accountID := cancelAll.accountID
  instrumentID := cancelAll.instrumentID
  cancels := (((c.openOrders cancelAll.accountID).filter cancelAll.matchesOrder).filter select).map
    fun order =>
      { metadata := cancelAll.metadata
        accountID := order.accountID
        instrumentID := order.instrumentID
        orderID := order.orderID
        clientOrderID := order.clientOrderID }

def emulatedBatch (c : Cache) (cancelAll : CancelAllOrders) : BatchCancelOrders :=
  matchingBatch c cancelAll fun order => decide (order.status = .emulated)

def nonEmulatedMatches (c : Cache) (cancelAll : CancelAllOrders) : Nat :=
  ((c.openOrders cancelAll.accountID).filter cancelAll.matchesOrder).countP
    fun order => decide (order.status ≠ .emulated)

namespace BatchHost

open Canceling

variable [DecimalPackage] {σ : Type} (host : BatchHost σ) (m : Manager)

/-- The rest of `CancelAllOrders`, with the answer of the local cancels. In its last branch
the source returns what the batch returns, and not what was canceled locally. -/
def cancelAllAtClient (cancelAll : CancelAllOrders) (localAnswer : Answer) (s : Canceling σ) :
    Answer × Canceling σ :=
  if host.connected cancelAll.accountID then
    match host.all cancelAll.accountID with
    | some request =>
      let (venue, app) := request cancelAll s.app
      let (venue, s) := host.takeAnswer m venue { s with app := app }
      (localAnswer ++ venue, s)
    | none =>
      let batch := matchingBatch (host.engine s.app).cache cancelAll fun _ => true
      if batch.cancels = [] then ({}, s) else host.batchCancelOrders m batch s
  else (localAnswer ++ { errors := [clientNotFound cancelAll.accountID] },
    s.fails (clientNotFound cancelAll.accountID))

def cancelAllOrders (cancelAll : CancelAllOrders) (s : Canceling σ) : Answer × Canceling σ :=
  match cancelAll.validate with
  | .error err => ({ errors := [err] }, s.fails err)
  | .ok () =>
    let c := (host.engine s.app).cache
    if (emulatedBatch c cancelAll).cancels = [] then
      host.cancelAllAtClient m cancelAll {} s
    else
      let (answer, s) := host.batchCancelOrders m (emulatedBatch c cancelAll) s
      if nonEmulatedMatches c cancelAll = 0 then (answer, s)
      else host.cancelAllAtClient m cancelAll answer s

/-! ### What the record is of -/

section

variable {host m} {cancel : CancelOrder} {batch : BatchCancelOrders} {s t u : Canceling σ}

theorem recordLocally_app : (host.recordLocally cancel s).app = s.app := by
  unfold recordLocally
  split <;> rfl

theorem recordLocally_of_none (h : locally (host.engine s.app) cancel = none) :
    host.recordLocally cancel s = s := by
  rw [recordLocally, h]
  cases cancel.validate <;> rfl

theorem recordLocally_of_some (hvalid : cancel.validate = .ok ())
    {entry : OrderStatusReport × Engine} (h : locally (host.engine s.app) cancel = some entry) :
    host.recordLocally cancel s = s.arrives entry := by
  rw [recordLocally, hvalid, h]

theorem projects_recordedCancelEmulated :
    Prog.Projects (·.app) (host.recordedCancelEmulated m cancel)
      (host.cancelEmulatedOrder m cancel) := by
  intro s
  change _ = (((host.cancelEmulatedOrder m cancel).run (host.recordLocally cancel s).app).1,
    ((host.cancelEmulatedOrder m cancel).run (host.recordLocally cancel s).app).2)
  rw [recordLocally_app]

/-- But for the record, an order is canceled as by `cancelOrder`. -/
theorem projects_recordedCancel :
    Prog.Projects (·.app) (host.recordedCancel m cancel) (host.cancelOrder m cancel) := by
  refine Prog.Projects.bind (fun _ => rfl) fun _ =>
    projects_recordedCancelEmulated.bind fun answer => ?_
  cases answer with
  | some report => exact .pure report
  | none =>
    refine Prog.Projects.bind (fun _ => rfl) fun _ => Prog.Projects.bind (fun _ => rfl)
      fun report s => ?_
    exact Prog.Projects.bind (f := Canceling.app) (fun _ => rfl) (fun _ => .pure report)
      (s.arrives (report, host.engine s.app))

/-- The manager accepts the report. -/
def Takes (m : Manager) (entry : OrderStatusReport × Engine) : Prop :=
  ((Engine.applyReport m entry.1).run entry.2).1 = .ok ()

theorem run_onApp {α : Type} {p : Prog σ Err α} {app : σ} {x : Except Err α}
    (h : p.run s.app = (x, app)) : (onApp p).run s = (x, { s with app := app }) :=
  Prog.run_zoom h

theorem run_emulatorCancelOrder {e : Engine} {em : Emulator} (hem : e.emulator = some em)
    (hvalid : cancel.validate = .ok ()) :
    (Engine.emulatorCancelOrder m em cancel).run e =
      match locally e cancel with
      | none => (.ok none, e)
      | some entry =>
        (Engine.applyReport m entry.1 >>= fun _ => pure (some entry.1)).run entry.2 := by
  have hfirst : (Prog.lift cancel.validate : Prog Engine Err Unit).run e = (.ok (), e) := by
    rw [hvalid]
    rfl
  rw [Engine.emulatorCancelOrder, Prog.run_bind_ok hfirst, Prog.run_get_bind, locally, heldReport,
    hem]
  cases Engine.emulatedOrderReport e.cache cancel.accountID cancel.orderID
      cancel.clientOrderID with
  | none => rfl
  | some report =>
    cases hheld : em.orders.get (Engine.reportKey report) with
    | none =>
      simp only [hheld, Option.isNone_none, Option.filter_some, Option.isSome_none, if_true,
        Bool.false_eq_true, if_false, Option.map_none]
      rfl
    | some order =>
      simp only [hheld, Option.isNone_some, Option.filter_some, Option.isSome_some, if_true,
        Option.map_some]
      rfl

/-- What can come of a valid cancel at the emulator: the order is not held, or it was held
and the manager is told. -/
theorem run_recordedCancelEmulated (hvalid : cancel.validate = .ok ()) :
    heldReport (host.engine s.app) cancel = none ∧
        (host.recordedCancelEmulated m cancel).run s = (.ok none, s) ∨
      ∃ entry app x, heldReport (host.engine s.app) cancel ≠ none ∧
        (host.recordedCancelEmulated m cancel).run s =
          (x, { s.arrives entry with app := app }) ∧
        (x = .ok (some entry.1) ∧ Takes m entry ∨ (∃ err, x = .error err) ∧ ¬ Takes m entry) := by
  have hrun : ∀ {x app}, (host.cancelEmulatedOrder m cancel).run s.app = (x, app) →
      (host.recordedCancelEmulated m cancel).run s =
        (x, { host.recordLocally cancel s with app := app }) := by
    intro x app h
    have happ : (host.recordLocally cancel s).app = s.app := recordLocally_app
    rw [← happ] at h
    exact run_onApp h
  cases hlocal : locally (host.engine s.app) cancel with
  | none =>
    have hcancel : (host.cancelEmulatedOrder m cancel).run s.app = (.ok none, s.app) := by
      rw [Host.cancelEmulatedOrder, Prog.run_get_bind]
      cases hem : (host.engine s.app).emulator with
      | none => rfl
      | some em =>
        have hengine : (host.onEngine (Engine.emulatorCancelOrder m em cancel)).run s.app =
            (.ok none, host.setEngine (host.engine s.app) s.app) := by
          refine Prog.run_zoom ?_
          rw [run_emulatorCancelOrder hem hvalid, hlocal]
        rw [host.setEngine_engine] at hengine
        exact (Prog.run_bind_ok hengine).trans rfl
    refine .inl ⟨Option.map_eq_none_iff.mp hlocal, ?_⟩
    rw [hrun hcancel, recordLocally_of_none hlocal]
  | some entry =>
    have hheld : heldReport (host.engine s.app) cancel ≠ none := by
      intro hnone
      rw [locally, hnone] at hlocal
      cases hlocal
    obtain ⟨em, hem⟩ : ∃ em, (host.engine s.app).emulator = some em := by
      cases hem : (host.engine s.app).emulator with
      | none => exact absurd (by rw [heldReport, hem]) hheld
      | some em => exact ⟨em, rfl⟩
    have hengine := run_emulatorCancelOrder (m := m) hem hvalid
    rw [hlocal] at hengine
    dsimp only at hengine
    rw [Prog.run_bind] at hengine
    have hcancel : (host.cancelEmulatedOrder m cancel).run s.app =
        (host.onEngine (Engine.emulatorCancelOrder m em cancel) >>= fun answer =>
          answer.elim (pure none) fun report => do
            host.onEngine (Engine.publishOrderLifecycle report .canceled .emulated)
            pure (some report)).run s.app := by
      rw [Host.cancelEmulatedOrder, Prog.run_get_bind, hem]
      refine congrArg (fun k => (_ >>= k : Prog σ _ _).run s.app) (funext fun answer => ?_)
      cases answer <;> rfl
    refine .inr ⟨entry, ?_⟩
    rw [← recordLocally_of_some hvalid hlocal]
    rcases htake : (Engine.applyReport m entry.1).run entry.2 with ⟨result, e⟩
    rw [htake] at hengine
    cases result with
    | ok =>
      have hzoom : (host.onEngine (Engine.emulatorCancelOrder m em cancel)).run s.app =
          (.ok (some entry.1), host.setEngine e s.app) := Prog.run_zoom hengine
      exact ⟨_, _, hheld, hrun (hcancel.trans (Prog.run_bind_ok hzoom)),
        .inl ⟨rfl, congrArg Prod.fst htake⟩⟩
    | error err =>
      have hzoom : (host.onEngine (Engine.emulatorCancelOrder m em cancel)).run s.app =
          (.error err, host.setEngine e s.app) := Prog.run_zoom hengine
      refine ⟨_, _, hheld, hrun (hcancel.trans (Prog.run_bind_error hzoom)),
        .inr ⟨⟨err, rfl⟩, fun h => ?_⟩⟩
      rw [Takes, htake] at h
      cases h

/-! ### What the answers have of the record -/

/-- From `s` to `t` the record grows by `log` and `entries`. The answer has every error of
it, and every report exactly if the manager takes those about single orders. -/
structure Logs (m : Manager) (s t : Canceling σ) (answer log : Answer)
    (entries : List (OrderStatusReport × Engine)) : Prop where
  log_eq : t.log = s.log ++ log
  arrived_eq : t.arrived = s.arrived ++ entries
  errors_eq : answer.errors = log.errors
  reports_sublist : answer.reports.Sublist log.reports
  reports_eq_iff : answer.reports = log.reports ↔ ∀ entry ∈ entries, Takes m entry

/-- The outcome of a method, recorded from `s` on; only if `quiet` is nothing recorded. -/
def Recorded (m : Manager) (s : Canceling σ) (out : Answer × Canceling σ) (quiet : Prop) : Prop :=
  ∃ log entries, Logs m s out.2 out.1 log entries ∧ (log = {} → quiet)

section

variable {a b : Answer} {p q : Prop} {entry : OrderStatusReport × Engine}

theorem append_eq_append_of_sublist {α : Type} {w x y z : List α} (hwy : w.Sublist y)
    (hxz : x.Sublist z) : w ++ x = y ++ z ↔ w = y ∧ x = z := by
  refine ⟨fun h => ?_, fun h => by rw [h.1, h.2]⟩
  have hlength := congrArg List.length h
  rw [List.length_append, List.length_append] at hlength
  have hle := hwy.length_le
  have hle' := hxz.length_le
  exact ⟨hwy.eq_of_length (by omega), hxz.eq_of_length (by omega)⟩

theorem Recorded.append (hst : Recorded m s (a, t) p) (htu : Recorded m t (b, u) q) :
    Recorded m s (a ++ b, u) (p ∧ q) := by
  obtain ⟨log, entries, h, hp⟩ := hst
  obtain ⟨log', entries', h', hq⟩ := htu
  refine ⟨log ++ log', entries ++ entries', ⟨?_, ?_, ?_, ?_, ?_⟩, fun hnil => ?_⟩
  · rw [h'.log_eq, h.log_eq]
    exact Answer.ext (List.append_assoc ..) (List.append_assoc ..)
  · rw [h'.arrived_eq, h.arrived_eq, List.append_assoc]
  · exact congrArg₂ (· ++ ·) h.errors_eq h'.errors_eq
  · exact h.reports_sublist.append h'.reports_sublist
  · rw [List.forall_mem_append, ← h.reports_eq_iff, ← h'.reports_eq_iff]
    exact append_eq_append_of_sublist h.reports_sublist h'.reports_sublist
  · exact (Answer.append_eq_nil hnil).imp hp hq

theorem Recorded.mono {out : Answer × Canceling σ} (h : Recorded m s out p) (hpq : p → q) :
    Recorded m s out q := by
  obtain ⟨log, entries, h, hp⟩ := h
  exact ⟨log, entries, h, hpq ∘ hp⟩

theorem recorded_nothing (app : σ) : Recorded m s ({}, { s with app := app }) True :=
  ⟨{}, [], ⟨(Answer.append_nil _).symm, (List.append_nil _).symm, rfl, List.nil_sublist _,
    by simp⟩, fun _ => trivial⟩

theorem recorded_fails (err : Err) : Recorded m s ({ errors := [err] }, s.fails err) False :=
  ⟨{ errors := [err] }, [], ⟨rfl, (List.append_nil _).symm, rfl, List.nil_sublist _, by simp⟩,
    fun h => nomatch congrArg Answer.errors h⟩

theorem recorded_taken (h : Takes m entry) (app : σ) :
    Recorded m s ({ reports := [entry.1] }, { s.arrives entry with app := app }) False :=
  ⟨{ reports := [entry.1] }, [entry], ⟨rfl, rfl, rfl, List.Sublist.refl _, by simpa using h⟩,
    fun h => nomatch congrArg Answer.reports h⟩

theorem recorded_refused (h : ¬ Takes m entry) (app : σ) (err : Err) :
    Recorded m s ({ errors := [err] }, { s.arrives entry with app := app }.fails err) False := by
  refine ⟨{ reports := [entry.1], errors := [err] }, [entry], ⟨?_, rfl, rfl, List.nil_sublist _,
    by simpa using h⟩, fun h => nomatch congrArg Answer.errors h⟩
  exact Answer.ext (List.append_nil _) (congrArg (· ++ [err]) (List.append_nil _))

theorem recorded_answer (venue : Answer) (app : σ) :
    Recorded m s (venue, { s with log := s.log ++ venue, app := app }) (venue = {}) :=
  ⟨venue, [], ⟨rfl, (List.append_nil _).symm, rfl, List.Sublist.refl _, by simp⟩, id⟩

/-- From the start on, the answer has the whole record exactly if all reports are taken. -/
theorem Recorded.accounts_iff {app : σ} {out : Answer × Canceling σ}
    (h : Recorded m { app := app } out p) :
    out.1.Accounts out.2.log ↔ ∀ entry ∈ out.2.arrived, Takes m entry := by
  obtain ⟨log, entries, h, -⟩ := h
  have hlog : out.2.log = log := h.log_eq
  have harrived : out.2.arrived = entries := h.arrived_eq
  rw [hlog, harrived, ← h.reports_eq_iff]
  refine ⟨fun haccounts => ?_, fun heq => ?_⟩
  · exact h.reports_sublist.eq_of_length_le haccounts.1.length_le
  · rw [Answer.Accounts, heq, h.errors_eq]
    exact ⟨.refl _, .refl _⟩

/-- What is recorded before the answer begins is not in it. -/
theorem Recorded.log_eq_nil {out : Answer × Canceling σ} (h : Recorded m s out p)
    (haccounts : out.1.Accounts out.2.log) : s.log = {} := by
  obtain ⟨log, entries, h, -⟩ := h
  obtain ⟨hreports, herrors⟩ := haccounts
  rw [h.log_eq] at hreports herrors
  have hr := hreports.length_le.trans h.reports_sublist.length_le
  have he := herrors.length_le.trans_eq (congrArg List.length h.errors_eq)
  simp only [Answer.reports_append, Answer.errors_append, List.length_append] at hr he
  exact Answer.ext (List.length_eq_zero_iff.mp (by omega)) (List.length_eq_zero_iff.mp (by omega))

end

/-- What became of one order. -/
inductive CancelsOne (m : Manager) (s : Canceling σ) :
    Except Err OrderStatusReport × Canceling σ → Prop where
  | failed (err : Err) (app : σ) : CancelsOne m s (.error err, { s with app := app })
  | taken (entry : OrderStatusReport × Engine) (app : σ) (h : Takes m entry) :
      CancelsOne m s (.ok entry.1, { s.arrives entry with app := app })
  | refused (entry : OrderStatusReport × Engine) (app : σ) (err : Err) (h : ¬ Takes m entry) :
      CancelsOne m s (.error err, { s.arrives entry with app := app })

theorem cancelsOne_atClient (cancel : CancelOrder) (s : Canceling σ) :
    CancelsOne m s ((do
      onApp (host.client cancel.accountID)
      let report ← onApp (host.call (.cancel cancel))
      Prog.modify fun s => s.arrives (report, host.engine s.app)
      onApp (host.onEngine (Engine.applyReport m report))
      pure report : Prog (Canceling σ) Err OrderStatusReport).run s) := by
  have hclient : (onApp (host.client cancel.accountID)).run s =
      (reject (host.connected cancel.accountID = false)
        ⟨.clientNotFound, "account", [cancel.accountID]⟩, s) := rfl
  rw [Prog.run_bind, hclient, reject]
  split_ifs with hconnected
  · exact .failed _ s.app
  · match hcall : (host.call (.cancel cancel)).run s.app with
    | (.error err, app) =>
      have hcalled : (onApp (host.call (.cancel cancel))).run s =
          (.error err, { s with app := app }) := run_onApp hcall
      dsimp only
      rw [Prog.run_bind_error hcalled]
      exact .failed err app
    | (.ok report, app) =>
      have hcalled : (onApp (host.call (.cancel cancel))).run s =
          (.ok report, { s with app := app }) := run_onApp hcall
      dsimp only
      rw [Prog.run_bind_ok hcalled]
      let entry := (report, host.engine app)
      let s' : Canceling σ := { s.arrives entry with app := app }
      change CancelsOne m s ((onApp (host.onEngine (Engine.applyReport m report)) >>=
        fun _ => pure report).run s')
      match htake : (Engine.applyReport m report).run (host.engine app) with
      | (.ok (), e) =>
        have happlied : (onApp (host.onEngine (Engine.applyReport m report))).run s' =
            (.ok (), { s' with app := host.setEngine e app }) :=
          run_onApp (Prog.run_zoom htake)
        rw [Prog.run_bind_ok happlied]
        exact .taken entry _ (congrArg Prod.fst htake)
      | (.error err, e) =>
        have happlied : (onApp (host.onEngine (Engine.applyReport m report))).run s' =
            (.error err, { s' with app := host.setEngine e app }) :=
          run_onApp (Prog.run_zoom htake)
        rw [Prog.run_bind_error happlied]
        refine .refused entry _ err fun h => ?_
        rw [Takes, htake] at h
        cases h

theorem cancelsOne_recordedCancel (cancel : CancelOrder) (s : Canceling σ) :
    CancelsOne m s ((host.recordedCancel m cancel).run s) := by
  rw [recordedCancel]
  cases hvalid : cancel.validate with
  | error err => exact .failed err s.app
  | ok u =>
    change CancelsOne m s ((host.recordedCancelEmulated m cancel >>= _).run s)
    obtain ⟨-, hrun⟩ | ⟨entry, app, x, -, hrun, ⟨rfl, htakes⟩ | ⟨⟨err, rfl⟩, htakes⟩⟩ :=
      run_recordedCancelEmulated (m := m) (s := s) hvalid
    · rw [Prog.run_bind_ok hrun]
      exact cancelsOne_atClient cancel s
    · rw [Prog.run_bind_ok hrun]
      exact .taken entry app htakes
    · rw [Prog.run_bind_error hrun]
      exact .refused entry app err htakes

theorem recorded_cancelEach (cancels : List CancelOrder) :
    ∀ s, Recorded m s (host.cancelEach m cancels s) (cancels = []) := by
  induction cancels with
  | nil => exact fun s => (recorded_nothing s.app).mono fun _ => rfl
  | cons cancel cancels ih =>
    intro s
    rw [cancelEach]
    match (host.recordedCancel m cancel).run s, cancelsOne_recordedCancel (m := m) cancel s with
    | _, .failed err app =>
      exact ((recorded_nothing app).append ((recorded_fails err).append (ih _))).mono
        fun h => h.2.1.elim
    | _, .taken entry app h => exact ((recorded_taken h app).append (ih _)).mono fun h => h.1.elim
    | _, .refused entry app err h =>
      exact ((recorded_refused h app err).append (ih _)).mono fun h => h.1.elim

variable (host m) in
theorem recorded_cancelEmulatedOrders (cancels : List CancelOrder) :
    ∀ s, (∀ cancel ∈ cancels, (fillBatchCancel batch cancel).validate = .ok ()) →
      Recorded m s ((host.cancelEmulatedOrders m batch cancels s).1.1,
        (host.cancelEmulatedOrders m batch cancels s).2)
        (∀ cancel ∈ cancels,
          heldReport (host.engine s.app) (fillBatchCancel batch cancel) = none) := by
  induction cancels with
  | nil => exact fun s _ => (recorded_nothing s.app).mono fun _ => List.forall_mem_nil _
  | cons cancel cancels ih =>
    intro s hvalid
    obtain ⟨hcancel, hcancels⟩ := List.forall_mem_cons.mp hvalid
    rw [cancelEmulatedOrders]
    obtain ⟨hunheld, hrun⟩ | ⟨entry, app, x, -, hrun, ⟨rfl, htakes⟩ | ⟨⟨err, rfl⟩, htakes⟩⟩ :=
      run_recordedCancelEmulated (m := m) (s := s) hcancel
    · rw [hrun]
      exact (ih s hcancels).mono fun h => List.forall_mem_cons.mpr ⟨hunheld, h⟩
    · rw [hrun]
      exact ((recorded_taken htakes app).append (ih _ hcancels)).mono fun h => h.1.elim
    · rw [hrun]
      exact ((recorded_refused htakes app err).append (ih _ hcancels)).mono fun h => h.1.elim

/-- Commands about orders that the emulator does not hold all remain. -/
theorem cancelEmulatedOrders_of_unheld (cancels : List CancelOrder)
    (hvalid : ∀ cancel ∈ cancels, (fillBatchCancel batch cancel).validate = .ok ())
    (hunheld : ∀ cancel ∈ cancels,
      heldReport (host.engine s.app) (fillBatchCancel batch cancel) = none) :
    host.cancelEmulatedOrders m batch cancels s =
      (({}, cancels.map (fillBatchCancel batch)), s) := by
  induction cancels with
  | nil => rfl
  | cons cancel cancels ih =>
    obtain ⟨hcancel, hcancels⟩ := List.forall_mem_cons.mp hvalid
    obtain ⟨hnone, hnones⟩ := List.forall_mem_cons.mp hunheld
    rw [cancelEmulatedOrders]
    obtain ⟨-, hrun⟩ | ⟨entry, app, x, hheld, -⟩ :=
      run_recordedCancelEmulated (m := m) (s := s) hcancel
    · rw [hrun]
      dsimp only
      rw [ih hcancels hnones]
      rfl
    · exact absurd hnone hheld

theorem recorded_takeAnswer (venue : Answer) (s : Canceling σ) :
    Recorded m s (host.takeAnswer m venue s) (venue = {}) := by
  rw [takeAnswer]
  split_ifs with herrors
  · let apply := host.onEngine (Prog.forEach (Engine.applyReport m) venue.reports)
    match happly : apply.run s.app with
    | (.ok (), app) =>
      have hrun : (onApp apply).run { s with log := s.log ++ venue } =
          (.ok (), { s with log := s.log ++ venue, app := app }) := run_onApp happly
      rw [hrun]
      exact recorded_answer venue app
    | (.error err, app) =>
      have hrun : (onApp apply).run { s with log := s.log ++ venue } =
          (.error err, { s with log := s.log ++ venue, app := app }) := run_onApp happly
      rw [hrun]
      exact ((recorded_answer venue app).append (recorded_fails err)).mono And.left
  · exact recorded_answer venue s.app

variable (host m) in
theorem takeAnswer_nil (s : Canceling σ) :
    ∃ app, host.takeAnswer m {} s = ({}, { s with app := app }) := by
  refine ⟨host.setEngine (host.engine s.app) s.app, ?_⟩
  rw [takeAnswer, Answer.append_nil, if_pos rfl]
  rfl

theorem valid_cancels (hvalid : batch.validate = .ok ()) :
    batch.cancels ≠ [] ∧
      ∀ cancel ∈ batch.cancels, (fillBatchCancel batch cancel).validate = .ok () := by
  simp only [BatchCancelOrders.validate, except_seq_eq_ok, reject_eq_ok, checkAll_eq_ok,
    not_or] at hvalid
  obtain ⟨⟨haccount, hne⟩, hinstrument, hcancels⟩ := hvalid
  refine ⟨hne, fun cancel hmem => ?_⟩
  have hcancel := hcancels cancel hmem
  simp only [BatchCancelOrders.validateCancel, except_seq_eq_ok, reject_eq_ok, not_and,
    not_not] at hcancel
  obtain ⟨hsame, hkind, hids⟩ := hcancel
  have hfilled : (fillBatchCancel batch cancel).instrumentID = batch.instrumentID := by
    unfold fillBatchCancel
    dsimp only
    split_ifs with hempty
    · rfl
    · exact hkind hempty
  have hnamed : (fillBatchCancel batch cancel).accountID ≠ "" := by
    unfold fillBatchCancel orDefault
    dsimp only
    split_ifs with hempty
    · exact haccount
    · exact hempty
  simp only [CancelOrder.validate, except_seq_eq_ok, reject_eq_ok, not_or, not_and]
  exact ⟨⟨hnamed, hids⟩, by rw [hfilled]; exact hinstrument⟩

end

/-- Nothing comes of the batch: the emulator holds none of its orders, and the client
answers it with no report and no error. -/
structure Quiet (batch : BatchCancelOrders) (app : σ) : Prop where
  valid : batch.validate = .ok ()
  unheld : ∀ cancel ∈ batch.cancels,
    heldReport (host.engine app) (fillBatchCancel batch cancel) = none
  connected : host.connected batch.accountID = true
  unanswered : ∃ request, host.batch batch.accountID = some request ∧
    (request { batch with cancels := batch.cancels.map (fillBatchCancel batch) } app).1 = {}

/-- The engine cancels emulated orders and others in turn, and for the others the client
takes no request for everything. -/
structure Drops (cancelAll : CancelAllOrders) (app : σ) : Prop where
  valid : cancelAll.validate = .ok ()
  emulated : (emulatedBatch (host.engine app).cache cancelAll).cancels ≠ []
  others : nonEmulatedMatches (host.engine app).cache cancelAll ≠ 0
  connected : host.connected cancelAll.accountID = true
  oneByOne : host.all cancelAll.accountID = none
  answered : ¬ host.Quiet (emulatedBatch (host.engine app).cache cancelAll) app

section

variable {host m} {batch : BatchCancelOrders} {cancelAll : CancelAllOrders} {s t : Canceling σ}

theorem Quiet.run (h : host.Quiet batch s.app) :
    ∃ app, host.batchCancelOrders m batch s = ({}, { s with app := app }) := by
  obtain ⟨request, hrequest, hanswer⟩ := h.unanswered
  obtain ⟨hne, hvalid⟩ := valid_cancels h.valid
  rw [batchCancelOrders, h.valid]
  dsimp only
  rw [cancelEmulatedOrders_of_unheld batch.cancels hvalid h.unheld]
  dsimp only
  rw [if_neg (List.map_eq_nil_iff.not.mpr hne), cancelRemaining, if_pos h.connected, hrequest]
  dsimp only
  rw [hanswer]
  obtain ⟨app, hnil⟩ := takeAnswer_nil host m { s with
    app := (request { batch with cancels := batch.cancels.map (fillBatchCancel batch) } s.app).2 }
  rw [hnil]
  exact ⟨app, rfl⟩

theorem recorded_cancelRemaining (s : Canceling σ) :
    Recorded m s (host.cancelRemaining m batch s) (batch.cancels ≠ [] →
      host.connected batch.accountID = true ∧
        ∃ request, host.batch batch.accountID = some request ∧ (request batch s.app).1 = {}) := by
  rw [cancelRemaining]
  split_ifs with hconnected
  · cases hrequest : host.batch batch.accountID with
    | none => exact (recorded_cancelEach batch.cancels s).mono fun hnil hne => absurd hnil hne
    | some request =>
      exact ((recorded_nothing (request batch s.app).2).append (recorded_takeAnswer _ _)).mono
        fun h _ => ⟨hconnected, request, rfl, h.2⟩
  · exact (recorded_fails _).mono False.elim

theorem recorded_batchCancelOrders (batch : BatchCancelOrders) (s : Canceling σ) :
    Recorded m s (host.batchCancelOrders m batch s) (host.Quiet batch s.app) := by
  rw [batchCancelOrders]
  cases hvalid : batch.validate with
  | error err => exact (recorded_fails err).mono False.elim
  | ok u =>
    obtain ⟨hne, hcancels⟩ := valid_cancels hvalid
    have hemulated := recorded_cancelEmulatedOrders host m batch.cancels s hcancels
    dsimp only
    by_cases hunheld : ∀ cancel ∈ batch.cancels,
        heldReport (host.engine s.app) (fillBatchCancel batch cancel) = none
    · rw [cancelEmulatedOrders_of_unheld batch.cancels hcancels hunheld]
      dsimp only
      rw [if_neg (List.map_eq_nil_iff.not.mpr hne)]
      refine (recorded_cancelRemaining s).mono fun h => ?_
      obtain ⟨hconnected, hanswer⟩ := h (List.map_eq_nil_iff.not.mpr hne)
      exact ⟨hvalid, hunheld, hconnected, hanswer⟩
    · split_ifs
      · exact hemulated.mono fun h => absurd h hunheld
      · exact (hemulated.append (recorded_cancelRemaining _)).mono fun h => absurd h.1 hunheld

/-- With a request for everything, and without a client, the local answer is kept. -/
theorem recorded_cancelAllAtClient {localAnswer : Answer} {p : Prop}
    (hkept : ¬ (host.connected cancelAll.accountID = true ∧ host.all cancelAll.accountID = none))
    (hlocal : Recorded m s (localAnswer, t) p) :
    Recorded m s (host.cancelAllAtClient m cancelAll localAnswer t) p := by
  rw [cancelAllAtClient]
  split_ifs with hconnected
  · cases hall : host.all cancelAll.accountID with
    | none => exact absurd ⟨hconnected, hall⟩ hkept
    | some request =>
      have hcalled := hlocal.append (recorded_nothing (request cancelAll t.app).2)
      rw [Answer.append_nil] at hcalled
      exact (hcalled.append (recorded_takeAnswer _ _)).mono fun h => h.1.1
  · exact (hlocal.append (recorded_fails _)).mono And.left

/-- Otherwise the answer is that of the cancels one by one. -/
theorem recorded_cancelAllAtClient_oneByOne (hconnected : host.connected cancelAll.accountID = true)
    (hall : host.all cancelAll.accountID = none) (localAnswer : Answer) (s : Canceling σ) :
    Recorded m s (host.cancelAllAtClient m cancelAll localAnswer s) True := by
  rw [cancelAllAtClient, if_pos hconnected, hall]
  dsimp only
  split_ifs
  · exact recorded_nothing s.app
  · exact (recorded_batchCancelOrders _ s).mono fun _ => trivial

end

/-- For every application, every client and every state: the answer of `CancelAllOrders`
has every report about a canceled order and every error exactly if the manager takes the
reports about single orders and no local cancels are dropped. -/
theorem cancel_all_accounted_iff (cancelAll : CancelAllOrders) (app : σ) :
    (host.cancelAllOrders m cancelAll { app := app }).1.Accounts
        (host.cancelAllOrders m cancelAll { app := app }).2.log ↔
      (∀ entry ∈ (host.cancelAllOrders m cancelAll { app := app }).2.arrived, Takes m entry) ∧
        ¬ host.Drops cancelAll app := by
  -- A run that drops nothing is recorded from its start on.
  have hiff : ∀ {out : Answer × Canceling σ} {p : Prop}, ¬ host.Drops cancelAll app →
      Recorded m { app := app } out p → (out.1.Accounts out.2.log ↔
        (∀ entry ∈ out.2.arrived, Takes m entry) ∧ ¬ host.Drops cancelAll app) :=
    fun hkept h => h.accounts_iff.trans (and_iff_left hkept).symm
  rw [cancelAllOrders]
  cases hvalid : cancelAll.validate with
  | error err =>
    refine hiff (fun h => ?_) (recorded_fails err)
    rw [h.valid] at hvalid
    cases hvalid
  | ok u =>
    dsimp only
    by_cases hone : host.connected cancelAll.accountID = true ∧
        host.all cancelAll.accountID = none
    · have hrest := recorded_cancelAllAtClient_oneByOne (m := m) hone.1 hone.2
      split_ifs with hemulated hothers
      · exact hiff (fun h => h.emulated hemulated) (hrest _ _)
      · exact hiff (fun h => h.others hothers) (recorded_batchCancelOrders _ _)
      · by_cases hquiet : host.Quiet (emulatedBatch (host.engine app).cache cancelAll) app
        · obtain ⟨app', hrun⟩ := Quiet.run (m := m) (s := { app := app }) hquiet
          rw [hrun]
          exact (hrest _ _).accounts_iff.trans
            (and_iff_left fun h => h.answered hquiet).symm
        · refine iff_of_false (fun h => hquiet ?_) fun h => h.2
            ⟨hvalid, hemulated, hothers, hone.1, hone.2, hquiet⟩
          obtain ⟨log, entries, hlogs, hnil⟩ := recorded_batchCancelOrders (m := m)
            (emulatedBatch (host.engine app).cache cancelAll) { app := app }
          exact hnil (hlogs.log_eq.symm.trans ((hrest _ _).log_eq_nil h))
    · have hkept : ¬ host.Drops cancelAll app := fun h => hone ⟨h.connected, h.oneByOne⟩
      split_ifs
      · exact hiff hkept (recorded_cancelAllAtClient hone (recorded_nothing app))
      · exact hiff hkept (recorded_batchCancelOrders _ _)
      · exact hiff hkept (recorded_cancelAllAtClient hone (recorded_batchCancelOrders _ _))

end BatchHost

/-! ### A client that takes single orders only -/

/-- A limit buy order at one venue. -/
def limitBuy (clientOrderID : ClientOrderID) (trigger : TriggerType) : SubmitOrder :=
  { accountID := "acct", instrumentID := ⟨"BTC-USD", "VENUE"⟩, clientOrderID := clientOrderID
    side := .buy, type := .limit, quantity := 1, price := 100, emulationTrigger := trigger }

def limitReport (orderID : OrderID) (status : OrderStatus) : OrderStatusReport :=
  { accountID := "acct", instrumentID := ⟨"BTC-USD", "VENUE"⟩, orderID := orderID
    clientOrderID := "plain", status := status, side := .buy, type := .limit, quantity := 1
    price := 100 }

/-- The client accepts every order as "9" and cancels every order. -/
def singleHost : BatchHost Engine where
  engine := id
  setEngine e _ := e
  connected _ := true
  modifies _ := false
  algorithms _ := false
  call
    | .cancel _ => pure (limitReport "9" .canceled)
    | _ => pure { limitReport "9" .accepted with leavesQuantity := 1 }
  setEngine_engine _ := rfl

/-- An emulated order and one at the venue have been submitted. -/
def bothSubmitted : Engine :=
  let submit (order : SubmitOrder) : Prog Engine Err OrderStatusReport :=
    @Host.submitOrder exactDecimals _ singleHost.toHost {} order
  ((submit (limitBuy "plain" .unset)).run
    ((submit (limitBuy "emulated" .default)).run { emulator := some {} }).2).2

def canceledAll : Answer × Canceling Engine :=
  @BatchHost.cancelAllOrders exactDecimals _ singleHost {}
    { accountID := "acct", instrumentID := ⟨"BTC-USD", "VENUE"⟩ } { app := bothSubmitted }

/-- Both orders are canceled, and the report of the emulated one is lost. -/
theorem local_cancel_lost :
    canceledAll.2.log.reports.map (·.clientOrderID) = ["emulated", "plain"] ∧
      canceledAll.2.app.cache.openOrders "acct" = [] ∧
      canceledAll.1.reports.map (·.clientOrderID) = ["plain"] ∧ canceledAll.1.errors = [] := by
  decide +kernel

end Exchanges.Execution
