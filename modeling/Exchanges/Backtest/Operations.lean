import Exchanges.Backtest.Steps

/-!
Every operation of the runtime is a sequence of steps.

The lemmas follow the text of the runtime, one for each of its functions. They
are stated for any relation `R` that has the steps, is closed under what runs
inside an operation, and preserves an invariant `I` of the runtime: `Inner`
collects this. `Inner` says nothing about the fills of a match list, of which
one fill may come long after the list was made; `Closed` adds what remains to
be known there.
-/

set_option linter.unusedSectionVars false

namespace Exchanges.Backtest

open Exchanges.Lib Exchanges.Model Prog Relation

/-- An attempt hands on what the program did. -/
theorem run_attempt_eq {σ ε α : Type} {p : Prog σ ε α} {s s' : σ} {x : Except ε α} :
    p.attempt.run s = (.ok x, s') ↔ p.run s = (x, s') := by
  rw [run_attempt]
  constructor
  · intro h
    obtain ⟨hx, hs⟩ := Prod.mk.inj h
    exact Prod.ext (Except.ok.inj hx) hs
  · intro h
    rw [h]

theorem run_record (entry : Entry) (s : Runtime) :
    (record entry).run s = (.ok (), { s with trace := s.trace ++ [entry] }) := rfl

section Operations

variable [DecimalPackage]

/-- What the operations need of the steps. What is known of a version of an order, `V`, may
depend on what has happened until then, but is not lost. -/
structure Ground (cfg : Config) (V : Runtime → OrderStatusReport → Prop) (I : Runtime → Prop)
    (R : Runtime → Runtime → Prop) : Prop where
  acceptance : ∀ {r r' order}, order.validate = .ok () → V r (acceptance r' order)
  modified : ∀ {r r' o report}, I r → Cached r o → Modified o report →
    (storeReport report).run r = (.ok (), r') → V r' report
  triggered : ∀ {r o report}, V r o → o.status.isOpen = true → Revises o report →
    report.status = .triggered → V r report
  stored : ∀ {r o}, I r → Cached r o → V r o
  kept : ∀ o, Stable (V · o) R
  consumed : ∀ {r}, I r → ∀ id price, 0 ≤ r.consumed id price
  stable : Stable I R
  plain : ∀ {r r'}, Plain cfg (V r) r r' → R r r'

/-- What most operations need of what runs inside them: strategies are told of
execution events. -/
structure Calls (cfg : Config) (nested : Nested) (V : Runtime → OrderStatusReport → Prop)
    (I : Runtime → Prop) (R : Runtime → Runtime → Prop) : Prop extends Ground cfg V I R where
  tell : ∀ event t, Goes I R (nested.process ⟨.execution, .execution event, t⟩)

/-- What all operations need of what runs inside them. -/
structure Inner (cfg : Config) (nested : Nested) (V : Runtime → OrderStatusReport → Prop)
    (I : Runtime → Prop) (R : Runtime → Runtime → Prop) : Prop
    extends Calls cfg nested V I R where
  process : ∀ env, Goes I R (nested.process env)
  matchOrder : ∀ {o}, Goes (fun r => I r ∧ V r o) R (nested.matchOrder o)

/-! ### Looking orders up -/

variable {a : AccountID} {r : Runtime} {report : OrderStatusReport} {s s' : Runtime}

theorem cached_order {i : OrderID} {o : OrderStatusReport}
    (h : r.cache.order a i = some o) : Cached r o := ⟨_, h⟩

theorem cached_orderByClientID {i : ClientOrderID}
    {o : OrderStatusReport} (h : r.cache.orderByClientID a i = some o) : Cached r o := by
  obtain ⟨orderID, -, horder⟩ := Option.bind_eq_some_iff.mp h
  exact ⟨_, horder⟩

theorem cached_orderByVenueID {i : VenueOrderID}
    {o : OrderStatusReport} (h : r.cache.orderByVenueID a i = some o) : Cached r o := by
  obtain ⟨orderID, -, horder⟩ := Option.bind_eq_some_iff.mp h
  exact ⟨_, horder⟩

theorem cached_findCanceled {cancel : CancelOrder} {o : OrderStatusReport}
    (h : findCanceled r.cache cancel = some o) : Cached r o := by
  unfold findCanceled at h
  split at h
  · next order horder =>
      cases h
      exact cached_order horder
  · split at h
    · exact cached_orderByClientID h
    · cases h

theorem cached_findByIDs {i : OrderID} {ci : ClientOrderID}
    {v : VenueOrderID} {o : OrderStatusReport} (h : r.cache.findByIDs a i ci v = some o) :
    Cached r o := by
  unfold Cache.findByIDs at h
  rcases Option.or_eq_some_iff.mp h with h | ⟨-, h⟩
  · split at h
    · exact cached_order h
    · cases h
  · rcases Option.or_eq_some_iff.mp h with h | ⟨-, h⟩
    · split at h
      · exact cached_orderByClientID h
      · cases h
    · split at h
      · exact cached_orderByVenueID h
      · cases h

theorem cached_openOrders {o : OrderStatusReport} (h : o ∈ r.cache.openOrders a) : Cached r o := by
  unfold Cache.openOrders Cache.sortOrders at h
  rw [List.mem_insertionSort] at h
  obtain ⟨k, hk⟩ := OrdMap.mem_row.mp (List.mem_of_mem_filter h)
  exact ⟨_, hk⟩

/-! ### Execution events -/

/-- An event that carries only a lifecycle event changes nothing. -/
theorem reconcile_silent {event : ExecutionEvent} (haccount : event.account = none)
    (horder : event.order = none) (hfill : event.fill = none)
    (hposition : event.position = none) (r : Runtime) : ((reconcile event).run r).2 = r := by
  have happly : (Account.apply event).run r.cache = (event.validate, r.cache) := by
    rw [Account.apply, haccount, horder, hfill, hposition, run_bind, run_lift]
    cases event.validate with
    | ok u => cases u; rfl
    | error err => rfl
  have hzoom : (onCache (Account.apply event)).run r = (event.validate, r) := by
    rw [onCache, run_zoom happly]
  rw [reconcile, run_get_bind, run_bind, run_attempt, hzoom, horder]
  rfl

namespace Calls

variable {cfg : Config} {nested : Nested} {V : Runtime → OrderStatusReport → Prop}
  {I : Runtime → Prop} {R : Runtime → Runtime → Prop} (h : Calls cfg nested V I R)

include h

theorem goes_dispatchExecution (event : ExecutionEvent) :
    Goes I R (dispatchExecution nested event) :=
  Goes.get_bind' fun r => h.tell event r.currentTime

variable {s : Runtime}

/-- After the cache has taken an event the strategies are told. -/
theorem follows_apply {event : ExecutionEvent} (hs : I s)
    (hreconcile : Follows R (reconcile event) s) : Follows R (Backtest.apply nested event) s := by
  refine Follows.get_bind (Goes.bind_at h.stable hs hreconcile fun _ => ?_)
  refine Goes.bind h.stable (h.goes_dispatchExecution event) fun _ => ?_
  cases derivePositionLifecycle s.cache event with
  | none => exact Goes.pure ()
  | some lifecycle => exact h.goes_dispatchExecution _

theorem goes_applyLifecycle (event : OrderLifecycleEvent) :
    Goes I R (applyLifecycle nested event) := fun s hs =>
  h.follows_apply hs (Follows.of_eq (reconcile_silent rfl rfl rfl rfl s))

theorem follows_apply_order {report : OrderStatusReport} (hs : I s)
    (hamend : Amendment (V s) s report) : Follows R (Backtest.apply nested (.ofOrder report)) s :=
  h.follows_apply hs (Follows.single (h.plain (.reported hamend)))

theorem follows_applyReport {report : OrderStatusReport} (hs : I s)
    (hamend : Amendment (V s) s report) (kind : OrderEventKind) (previous : OrderStatus) :
    Follows R (applyReport nested report kind previous) s :=
  Goes.bind_at h.stable hs (h.follows_apply_order hs hamend) fun _ => h.goes_applyLifecycle _

theorem goes_apply_account (snapshot : AccountSnapshot) :
    Goes I R (Backtest.apply nested (.ofAccount snapshot)) := by
  intro s hs
  refine h.follows_apply hs ?_
  have hrun : (Account.apply (.ofAccount snapshot)).run s.cache =
      ((ExecutionEvent.ofAccount snapshot).validate, s.cache) ∨
      (Account.apply (.ofAccount snapshot)).run s.cache = (.ok (), s.cache.putAccount snapshot) := by
    rw [Account.apply, run_bind, run_lift]
    cases (ExecutionEvent.ofAccount snapshot).validate with
    | ok u => exact .inr rfl
    | error err => exact .inl rfl
  rcases hrun with hrun | hrun
  · refine Follows.of_eq ?_
    rw [reconcile, run_get_bind, run_bind, run_attempt, onCache, run_zoom hrun]
    rfl
  · refine Follows.single ?_
    have hstate : ((reconcile (.ofAccount snapshot)).run s).2 =
        { s with cache := s.cache.putAccount snapshot } := by
      rw [reconcile, run_get_bind, run_bind, run_attempt, onCache, run_zoom hrun]
      rfl
    rw [hstate]
    exact h.plain (.account s snapshot)

end Calls

/-! ### The execution engine -/

theorem run_engineSubmitOrder (order : SubmitOrder) (s : Runtime) :
    ((engineSubmitOrder order).run s).2 = s ∨ order.validate = .ok () ∧
      (engineSubmitOrder order).run s =
        (((storeReport (acceptance s.numbered order)).run s.numbered).1.map
          fun _ => acceptance s.numbered order,
        ((storeReport (acceptance s.numbered order)).run s.numbered).2) := by
  unfold engineSubmitOrder
  rw [run_bind, run_lift]
  cases reject (order.emulationTrigger.isActive = true)
    (⟨.notSupported, "execution emulator is not configured", []⟩ : Err) with
  | error err => exact .inl rfl
  | ok u =>
    dsimp only
    rw [run_bind, run_lift]
    cases reject (order.metadata.execAlgorithmID ≠ "")
      (⟨.algorithmNotFound, "", [order.metadata.execAlgorithmID]⟩ : Err) with
    | error err => exact .inl rfl
    | ok u =>
      dsimp only
      rw [run_bind, run_lift]
      cases order.validate with
      | error err => exact .inl rfl
      | ok u =>
        refine .inr ⟨rfl, ?_⟩
        dsimp only
        rw [run_bind_ok (run_modify _ s), run_get_bind]
        change (storeReport (acceptance s.numbered order) >>= fun _ =>
          pure (acceptance s.numbered order)).run s.numbered = _
        match hrun : (storeReport (acceptance s.numbered order)).run s.numbered with
        | (.ok (), s') => exact run_bind_ok hrun
        | (.error e, s') => exact run_bind_error hrun

/-- The engine accepts a valid order with a number of its own. -/
theorem engineSubmitOrder_ok {order : SubmitOrder}
    (hrun : (engineSubmitOrder order).run s = (.ok report, s')) :
    order.validate = .ok () ∧ report = acceptance s.numbered order ∧
      (storeReport report).run s.numbered = (.ok (), s') := by
  unfold engineSubmitOrder at hrun
  obtain ⟨_, s₁, h₁, hrun⟩ := run_bind_eq_ok.mp hrun
  obtain ⟨_, s₂, h₂, hrun⟩ := run_bind_eq_ok.mp hrun
  obtain ⟨_, s₃, h₃, hrun⟩ := run_bind_eq_ok.mp hrun
  obtain ⟨_, s₄, h₄, hrun⟩ := run_bind_eq_ok.mp hrun
  rw [run_get_bind] at hrun
  obtain ⟨⟨⟩, s₅, h₅, hrun⟩ := run_bind_eq_ok.mp hrun
  obtain ⟨-, rfl⟩ := Prod.mk.inj h₁
  obtain ⟨-, rfl⟩ := Prod.mk.inj h₂
  obtain ⟨hvalid, rfl⟩ := Prod.mk.inj h₃
  obtain ⟨-, rfl⟩ := Prod.mk.inj h₄
  obtain ⟨hreport, rfl⟩ := Prod.mk.inj hrun
  cases hreport
  exact ⟨hvalid, rfl, h₅⟩

theorem engineCancelOrder_ok {cancel : CancelOrder}
    (hrun : (engineCancelOrder cancel).run s = (.ok report, s')) :
    (∃ r₀, (storeReport report).run r₀ = (.ok (), s')) ∧ report.status = .canceled := by
  unfold engineCancelOrder at hrun
  obtain ⟨_, s₁, -, hrun⟩ := run_bind_eq_ok.mp hrun
  rw [run_get_bind] at hrun
  split at hrun
  · cases hrun
  · split at hrun
    · cases hrun
    · obtain ⟨⟨⟩, s₂, hstore, hrun⟩ := run_bind_eq_ok.mp hrun
      obtain ⟨hreport, rfl⟩ := Prod.mk.inj hrun
      cases hreport
      exact ⟨⟨_, hstore⟩, rfl⟩

theorem engineModifyOrder_ok {modify : ModifyOrder}
    (hrun : (engineModifyOrder modify).run s = (.ok report, s')) :
    (∃ o, Cached s o ∧ Modified o report) ∧ (storeReport report).run s = (.ok (), s') := by
  unfold engineModifyOrder at hrun
  obtain ⟨_, s₁, h₁, hrun⟩ := run_bind_eq_ok.mp hrun
  obtain ⟨-, rfl⟩ := Prod.mk.inj h₁
  rw [run_get_bind] at hrun
  split at hrun
  · cases hrun
  · next existing hfound =>
      obtain ⟨updated, s₂, hupdated, hrun⟩ := run_bind_eq_ok.mp hrun
      rw [run_lift] at hupdated
      obtain ⟨hok, rfl⟩ := Prod.mk.inj hupdated
      obtain ⟨⟨⟩, s₃, hstore, hrun⟩ := run_bind_eq_ok.mp hrun
      obtain ⟨hreport, rfl⟩ := Prod.mk.inj hrun
      cases hreport
      exact ⟨⟨existing, cached_findByIDs hfound,
        (modified_of_applyOrderModification hok).stamped ..⟩, hstore⟩

namespace Calls

variable {cfg : Config} {nested : Nested} {V : Runtime → OrderStatusReport → Prop}
  {I : Runtime → Prop} {R : Runtime → Runtime → Prop} (h : Calls cfg nested V I R)

include h

theorem goes_engineSubmitOrder (order : SubmitOrder) : Goes I R (engineSubmitOrder order) := by
  intro s _
  rcases run_engineSubmitOrder order s with hsame | ⟨hvalid, hrun⟩
  · exact Follows.of_eq hsame
  · refine Follows.single ?_
    rw [hrun]
    exact h.plain (.submitted s hvalid)

theorem follows_storeReport {report : OrderStatusReport} {s : Runtime}
    (hstoring : Storing s report) : Follows R (storeReport report) s :=
  Follows.single (h.plain (.stored hstoring))

theorem goes_engineCancelOrder (cancel : CancelOrder) : Goes I R (engineCancelOrder cancel) := by
  refine Goes.bind h.stable (Goes.lift _) fun _ => Goes.get_bind fun s hs => ?_
  split
  · exact Goes.fail _ s hs
  · next order hfound =>
      split_ifs with hclosed
      · exact Goes.fail _ s hs
      · refine Goes.bind_at h.stable hs (h.follows_storeReport ?_) fun _ => Goes.pure _
        exact .canceled (cached_findCanceled hfound) (by simpa using hclosed)
          ⟨rfl, rfl, rfl, rfl, rfl, rfl, rfl, .inr ⟨rfl, rfl⟩⟩ rfl

theorem goes_engineModifyOrder (modify : ModifyOrder) : Goes I R (engineModifyOrder modify) := by
  refine Goes.bind h.stable (Goes.lift _) fun _ => Goes.get_bind fun s hs => ?_
  split
  · exact Goes.fail _ s hs
  · next existing hfound =>
      refine (Goes.lift _ s hs).bind fun updated s' hrun _ => ?_
      rw [run_lift] at hrun
      obtain ⟨hupdated, rfl⟩ := Prod.mk.inj hrun
      refine Goes.bind_at h.stable hs (h.follows_storeReport ?_) fun _ => Goes.pure _
      exact .modified (cached_findByIDs hfound)
        ((modified_of_applyOrderModification hupdated).stamped ..)

theorem goes_engineQueryOrder (query : QueryOrder) : Goes I R (engineQueryOrder query) := by
  refine Goes.bind h.stable (Goes.lift _) fun _ => Goes.get_bind fun s hs => ?_
  split
  · exact Goes.fail _ s hs
  · next order hfound =>
      split_ifs
      · exact Goes.pure _ s hs
      · refine Goes.bind_at h.stable hs (h.follows_storeReport ?_) fun _ => Goes.pure _
        exact .queried (cached_findByIDs hfound)
          ⟨rfl, rfl, rfl, rfl, rfl, rfl, rfl, .inl rfl⟩ rfl

/-! ### Accepting orders -/

theorem goes_acceptOrder (order : SubmitOrder) : Goes I R (acceptOrder cfg nested order) := by
  refine Goes.bind h.stable (Goes.lift _) fun _ => ?_
  refine Goes.bind h.stable (h.goes_applyLifecycle _) fun _ => ?_
  refine Goes.bind h.stable (Goes.lift _) fun _ => ?_
  intro s hs
  refine (h.goes_engineSubmitOrder order s hs).bind fun report s' hrun hstar => ?_
  have hs' := h.stable.star hstar hs
  obtain ⟨hvalid, hreport, hstored⟩ := engineSubmitOrder_ok hrun
  have hstored : Amendment (V s') s' report :=
    .stored ⟨_, hstored⟩ (.inl (hreport ▸ h.acceptance hvalid))
  refine Goes.bind_at h.stable hs' (h.follows_applyReport hs' hstored _ _) fun _ => ?_
  exact Goes.bind h.stable (Goes.modify fun r _ => h.plain (.registered r report))
    fun _ => Goes.pure _

omit h in
theorem acceptOrder_ok {order : SubmitOrder} {s s' : Runtime} {report : OrderStatusReport}
    (hrun : (acceptOrder cfg nested order).run s = (.ok report, s')) :
    order.validate = .ok () ∧ ∃ r, report = acceptance r order := by
  unfold acceptOrder at hrun
  obtain ⟨_, s₁, -, hrun⟩ := run_bind_eq_ok.mp hrun
  obtain ⟨_, s₂, -, hrun⟩ := run_bind_eq_ok.mp hrun
  obtain ⟨_, s₃, -, hrun⟩ := run_bind_eq_ok.mp hrun
  obtain ⟨_, s₄, hsubmit, hrun⟩ := run_bind_eq_ok.mp hrun
  obtain ⟨_, s₅, -, hrun⟩ := run_bind_eq_ok.mp hrun
  obtain ⟨_, s₆, -, hrun⟩ := run_bind_eq_ok.mp hrun
  obtain ⟨hreport, -⟩ := Prod.mk.inj hrun
  cases hreport
  obtain ⟨hvalid, hreport, -⟩ := engineSubmitOrder_ok hsubmit
  exact ⟨hvalid, _, hreport⟩

theorem admissible_of_acceptOrder {order : SubmitOrder} {s s' : Runtime}
    {report : OrderStatusReport}
    (hrun : (acceptOrder cfg nested order).run s = (.ok report, s')) (r : Runtime) :
    V r report := by
  obtain ⟨hvalid, _, rfl⟩ := acceptOrder_ok hrun
  exact h.acceptance hvalid

/-! ### Canceling orders -/

theorem goes_rejectCancel {α : Type} (cancel : CancelOrder) (previous : OrderStatus)
    (report : Option OrderStatusReport) (cause : Err) :
    Goes I R (rejectCancel nested cancel previous report cause : Prog Runtime Err α) := by
  unfold rejectCancel
  dsimp only
  split_ifs
  · exact Goes.bind h.stable (h.goes_applyLifecycle _).attempt fun _ => Goes.fail cause
  · exact Goes.fail cause

theorem follows_cancelKnown {cancel : CancelOrder} {order : OrderStatusReport} {s : Runtime}
    (hs : I s) (hcached : Cached s order) (hopen : order.status.isOpen = true) :
    Follows R (cancelKnown nested cancel order) s := by
  refine Follows.get_bind ?_
  refine Goes.bind_at h.stable hs (h.follows_applyReport hs ?_ _ _) fun _ => ?_
  · exact .fresh hcached hopen ⟨rfl, rfl, rfl, rfl, rfl, rfl, rfl, .inl rfl⟩
      (.inr (.inr (.inl rfl)))
  refine Goes.bind h.stable (Goes.lift _) fun _ => ?_
  intro s₁ hs₁
  refine ((h.goes_engineCancelOrder _).attempt s₁ hs₁).bind fun canceled s₂ hrun hstar => ?_
  have hs₂ := h.stable.star hstar hs₁
  cases canceled with
  | error err => exact h.goes_rejectCancel _ _ _ _ s₂ hs₂
  | ok canceled =>
    obtain ⟨hstored, hcanceled⟩ := engineCancelOrder_ok (run_attempt_eq.mp hrun)
    exact Goes.bind_at h.stable hs₂
      (h.follows_applyReport hs₂ (.stored hstored (.inr hcanceled)) _ _) fun _ => Goes.pure _

theorem goes_cancelOrder (cancel : CancelOrder) : Goes I R (cancelOrder nested cancel) := by
  refine Goes.get_bind fun s hs => ?_
  split
  · exact h.goes_rejectCancel _ _ _ _ s hs
  · exact h.goes_rejectCancel _ _ _ _ s hs
  · next order hvalid hfound =>
      split_ifs with hclosed
      · exact h.goes_rejectCancel _ _ _ _ s hs
      · rw [not_or, Bool.not_eq_false] at hclosed
        exact h.follows_cancelKnown hs (cached_findCanceled hfound) hclosed.1

theorem goes_cancelEach (cancels : List CancelOrder) :
    Goes I R (cancelEach nested cancels) := by
  induction cancels with
  | nil => exact Goes.pure []
  | cons cancel cancels ih =>
    refine Goes.bind h.stable (h.goes_cancelOrder cancel).attempt fun first => ?_
    refine Goes.bind h.stable ih.attempt fun rest => ?_
    split
    · exact Goes.fail _
    · exact Goes.fail _
    · exact Goes.pure _

theorem goes_batchCancelOrders (batch : BatchCancelOrders) :
    Goes I R (batchCancelOrders nested batch) :=
  Goes.bind h.stable (Goes.lift _) fun _ => h.goes_cancelEach _

theorem goes_cancelAllOrders (cancelAll : CancelAllOrders) :
    Goes I R (cancelAllOrders nested cancelAll) := by
  refine Goes.bind h.stable (Goes.lift _) fun _ => Goes.get_bind' fun r => ?_
  dsimp only
  split_ifs
  · exact Goes.pure []
  · exact h.goes_batchCancelOrders _

theorem goes_cancelUnfilledRemainder (a : AccountID) (i : OrderID) :
    Goes I R (cancelUnfilledRemainder nested a i) := by
  refine Goes.get_bind fun s hs => ?_
  split
  · exact Goes.pure () s hs
  · next order hfound =>
      split_ifs with hclosed
      · exact Goes.pure () s hs
      · rw [not_or, Bool.not_eq_false] at hclosed
        refine h.follows_applyReport hs ?_ _ _
        exact .fresh (cached_order hfound) hclosed.1
          ⟨rfl, rfl, rfl, rfl, rfl, rfl, rfl, .inr ⟨rfl, rfl⟩⟩ (.inr (.inr (.inr rfl)))

/-! ### Modifying orders -/

theorem goes_rejectModify {α : Type} (modify : ModifyOrder) (previous : OrderStatus)
    (report : Option OrderStatusReport) (cause : Err) :
    Goes I R (rejectModify nested modify previous report cause : Prog Runtime Err α) := by
  unfold rejectModify
  dsimp only
  split_ifs
  · exact Goes.bind h.stable (h.goes_applyLifecycle _).attempt fun _ => Goes.fail cause
  · exact Goes.fail cause

omit h in
theorem goes_withOrder (fill : FillReport) {f : OrderStatusReport → Prog Runtime Err Unit}
    (hf : ∀ o, Goes I R (f o)) : Goes I R (withOrder fill f) := by
  refine Goes.get_bind' fun r => ?_
  split
  · exact Goes.pure ()
  · exact hf _

/-- What follows once a fill is booked. -/
theorem goes_announceFill {fill : FillReport} (hafter : Goes I R (afterFill cfg nested fill))
    (previous : Option PositionStatusReport) (position : PositionStatusReport) :
    Goes I R (announceFill cfg nested fill previous position) := by
  refine Goes.bind h.stable (h.goes_dispatchExecution _) fun _ => ?_
  refine Goes.bind h.stable (h.goes_dispatchExecution _) fun _ => ?_
  split
  · exact hafter
  · refine Goes.bind h.stable (fun s _ => Follows.of_eq (reconcile_silent rfl rfl rfl rfl s))
      fun _ => ?_
    exact Goes.bind h.stable (h.goes_dispatchExecution _) fun _ => hafter

end Calls

namespace Inner

variable {cfg : Config} {nested : Nested} {V : Runtime → OrderStatusReport → Prop}
  {I : Runtime → Prop} {R : Runtime → Runtime → Prop} (h : Inner cfg nested V I R)

include h

theorem follows_modifyKnown {modify : ModifyOrder} {existing : OrderStatusReport} {s : Runtime}
    (hs : I s) (hcached : Cached s existing) (hopen : existing.status.isOpen = true) :
    Follows R (modifyKnown nested modify existing) s := by
  refine Follows.get_bind ?_
  refine Goes.bind_at h.stable hs (h.follows_applyReport hs ?_ _ _) fun _ => ?_
  · exact .fresh hcached hopen ⟨rfl, rfl, rfl, rfl, rfl, rfl, rfl, .inl rfl⟩ (.inr (.inl rfl))
  refine Goes.bind h.stable (Goes.lift _) fun _ => ?_
  intro s₁ hs₁
  refine ((h.goes_engineModifyOrder _).attempt s₁ hs₁).bind fun updated s₂ hrun hstar => ?_
  have hs₂ := h.stable.star hstar hs₁
  cases updated with
  | error err => exact h.goes_rejectModify _ _ _ _ s₂ hs₂
  | ok updated =>
    obtain ⟨⟨o, hcached', hmodified⟩, hstored⟩ :=
      engineModifyOrder_ok (run_attempt_eq.mp hrun)
    have hstable := h.stable.and (h.kept updated)
    have hknown := h.modified hs₁ hcached' hmodified hstored
    refine Goes.bind_at hstable ⟨hs₂, hknown⟩
      (h.follows_applyReport hs₂ (.stored ⟨_, hstored⟩ (.inl hknown)) _ _) fun _ => ?_
    exact Goes.bind hstable h.matchOrder fun _ => Goes.get_bind' fun _ => Goes.pure _

theorem goes_modifyOrder (modify : ModifyOrder) : Goes I R (modifyOrder nested modify) := by
  refine Goes.get_bind fun s hs => ?_
  split
  · exact h.goes_rejectModify _ _ _ _ s hs
  · exact h.goes_rejectModify _ _ _ _ s hs
  · next existing hvalid hfound =>
      dsimp only
      split
      · exact h.goes_rejectModify _ _ _ _ s hs
      · next updated hupdated =>
          exact h.follows_modifyKnown hs (cached_findByIDs hfound)
            (modified_of_applyOrderModification hupdated).wasOpen

/-! ### Queries -/

theorem goes_queryOrder (query : QueryOrder) : Goes I R (queryOrder query) := by
  refine Goes.bind h.stable (Goes.lift _) fun _ => ?_
  refine Goes.bind h.stable (Goes.lift _) fun _ => ?_
  refine Goes.bind h.stable (h.goes_engineQueryOrder query).attempt fun answer => ?_
  refine Goes.get_bind' fun r => ?_
  split
  · exact Goes.pure _
  · exact Goes.pure _
  · exact Goes.fail _

theorem goes_queryAccount (query : QueryAccount) : Goes I R (queryAccount nested query) := by
  refine Goes.bind h.stable (Goes.lift _) fun _ => Goes.get_bind' fun r => ?_
  split
  · exact Goes.bind h.stable (h.goes_dispatchExecution _) fun _ => Goes.pure _
  · exact Goes.bind h.stable (h.goes_apply_account _) fun _ => Goes.pure _

/-! ### Order lists -/

theorem goes_onOpenSiblings (filled : OrderStatusReport)
    {f : OrderStatusReport → Prog Runtime Err Unit} (hf : ∀ o, Goes I R (f o)) :
    Goes I R (onOpenSiblings filled f) := by
  refine Goes.get_bind' fun r => ?_
  refine Goes.forEach h.stable fun id _ => ?_
  split_ifs
  · exact Goes.pure ()
  · refine Goes.get_bind' fun r => ?_
    split
    · exact Goes.pure ()
    · split_ifs
      · exact Goes.pure ()
      · exact hf _

theorem goes_updateOuoSiblings (filled : OrderStatusReport) (fillQuantity : Decimal) :
    Goes I R (updateOuoSiblings nested filled fillQuantity) := by
  unfold updateOuoSiblings
  split_ifs
  · exact Goes.pure ()
  · refine h.goes_onOpenSiblings filled fun sibling => ?_
    dsimp only
    split_ifs
    · exact h.goes_cancelUnfilledRemainder _ _
    · exact Goes.pure ()
    · exact Goes.bind h.stable (h.goes_modifyOrder _) fun _ => Goes.pure ()

theorem goes_cancelOcoSiblings (filled : OrderStatusReport) :
    Goes I R (cancelOcoSiblings nested filled) := by
  unfold cancelOcoSiblings
  split_ifs
  · exact Goes.pure ()
  · refine h.goes_onOpenSiblings filled fun sibling => ?_
    exact Goes.bind h.stable (h.goes_cancelOrder _) fun _ => Goes.pure ()

theorem goes_acceptChildren (parent : OrderStatusReport) (children : List SubmitOrder) :
    Goes I R (acceptChildren cfg nested parent children) := by
  induction children with
  | nil => exact Goes.pure []
  | cons child children ih =>
    refine Goes.get_bind' fun r => ?_
    split_ifs
    · split
      · split_ifs
        · exact Goes.bind h.stable (h.goes_modifyOrder _) fun _ => ih
        · exact ih
      · refine Goes.bind h.stable (h.goes_acceptOrder _) fun report => ?_
        exact Goes.bind h.stable ih fun _ => Goes.pure _
    · exact ih

theorem goes_updateHeldChildren (parent : OrderStatusReport) :
    Goes I R (updateHeldChildren cfg nested parent) := by
  refine Goes.get_bind' fun r => ?_
  dsimp only
  split
  · exact Goes.pure ()
  · refine Goes.bind h.stable (h.goes_acceptChildren _ _) fun accepted => ?_
    refine Goes.bind h.stable (Goes.modify fun s _ => h.plain ?_) fun _ => ?_
    · split_ifs
      · exact .released s _
      · exact .internal ⟨rfl, rfl, rfl, rfl, rfl, rfl, rfl, rfl, rfl, rfl, rfl⟩ (.of_eq rfl)
    · refine Goes.forEach h.stable fun report _ => Goes.get_bind fun s hs => ?_
      split
      · exact Goes.pure () s hs
      · next current hfound =>
          split_ifs
          · exact h.matchOrder s ⟨hs, h.stored hs (cached_order hfound)⟩
          · exact Goes.pure () s hs

/-! ### Fills -/

theorem goes_afterFill (fill : FillReport) : Goes I R (afterFill cfg nested fill) := by
  refine Goes.bind h.stable (Calls.goes_withOrder fill fun order => Goes.get_bind' fun r => ?_)
    fun _ => ?_
  · split_ifs
    · exact h.goes_cancelUnfilledRemainder _ _
    · exact Goes.pure ()
  refine Goes.bind h.stable (Calls.goes_withOrder fill fun order => h.goes_updateOuoSiblings _ _)
    fun _ => ?_
  refine Goes.bind h.stable (Calls.goes_withOrder fill fun order => h.goes_updateHeldChildren _)
    fun _ => ?_
  refine Calls.goes_withOrder fill fun order => ?_
  split_ifs
  · exact h.goes_cancelOcoSiblings _
  · exact Goes.pure ()

end Inner

/-! ### Making a fill -/

section Fee

variable (c : Cache) (order : OrderStatusReport) (fill : FillReport)

/-- A fee changes nothing else. -/
theorem applyFillFee_eq : ∃ fee currency,
    applyFillFee c order fill = { fill with fee := fee, feeCurrency := currency } := by
  unfold applyFillFee
  split
  · exact ⟨_, _, rfl⟩
  · dsimp only
    split_ifs
    · exact ⟨_, _, rfl⟩
    · exact ⟨_, _, rfl⟩

@[simp] theorem applyFillFee_accountID :
    (applyFillFee c order fill).accountID = fill.accountID := by
  obtain ⟨_, _, h⟩ := applyFillFee_eq c order fill
  rw [h]

@[simp] theorem applyFillFee_instrumentID :
    (applyFillFee c order fill).instrumentID = fill.instrumentID := by
  obtain ⟨_, _, h⟩ := applyFillFee_eq c order fill
  rw [h]

@[simp] theorem applyFillFee_tradeID : (applyFillFee c order fill).tradeID = fill.tradeID := by
  obtain ⟨_, _, h⟩ := applyFillFee_eq c order fill
  rw [h]

@[simp] theorem applyFillFee_side : (applyFillFee c order fill).side = fill.side := by
  obtain ⟨_, _, h⟩ := applyFillFee_eq c order fill
  rw [h]

@[simp] theorem applyFillFee_price : (applyFillFee c order fill).price = fill.price := by
  obtain ⟨_, _, h⟩ := applyFillFee_eq c order fill
  rw [h]

@[simp] theorem applyFillFee_quantity :
    (applyFillFee c order fill).quantity = fill.quantity := by
  obtain ⟨_, _, h⟩ := applyFillFee_eq c order fill
  rw [h]

@[simp] theorem applyFillFee_timestamp :
    (applyFillFee c order fill).timestamp = fill.timestamp := by
  obtain ⟨_, _, h⟩ := applyFillFee_eq c order fill
  rw [h]

end Fee

/-- The price after slippage, and the numbers drawn by then. -/
def slippage (cfg : Config) (r : Runtime) (order : OrderStatusReport) (price quantity : Decimal)
    (ts : Time) (source : FillSource) : Decimal × Nat :=
  cfg.fillModel.applySlippage (fillContext r.cache order price quantity ts source) price r.drawn

/-- The fill that is made of a match. -/
def madeFill (cfg : Config) (r : Runtime) (order : OrderStatusReport) (price quantity : Decimal)
    (ts : Time) (source : FillSource) : FillReport :=
  applyFillFee r.cache order (rawFill order (slippage cfg r order price quantity ts source).1
    quantity ts (r.nextTrade + 1))

theorem run_newFillReportWithSource (cfg : Config) (r : Runtime) (order : OrderStatusReport)
    (price quantity : Decimal) (ts : Time) (source : FillSource) :
    (newFillReportWithSource cfg order price quantity ts source).run r =
      (.ok (madeFill cfg r order price quantity ts source),
        { r with
          drawn := (slippage cfg r order price quantity ts source).2
          nextTrade := r.nextTrade + 1 }) := rfl

theorem run_drawTouch (cfg : Config) (r : Runtime) (order : OrderStatusReport)
    (price quantity : Decimal) (ts : Time) (source : FillSource) :
    ∃ touched drawn, (drawTouch cfg order price quantity ts source).run r =
      (.ok touched, { r with drawn := drawn }) := ⟨_, _, rfl⟩

/-- A fill is booked, and if that succeeds the strategies are told. -/
theorem run_fillOrder (cfg : Config) (nested : Nested) (s : Runtime) (order : OrderStatusReport)
    (price quantity : Decimal) (ts : Time) (source : FillSource) (consumed : Decimal)
    (earlier : List (Decimal × FillReport)) :
    let fill := madeFill cfg s order price quantity ts source
    let s₂ := booked s ⟨order, source, price, consumed, earlier, fill⟩
      (slippage cfg s order price quantity ts source).2
    (∃ err, (fillOrder cfg nested order price quantity ts source consumed earlier).run s =
      (.error err, s₂)) ∨
    ∃ previous position,
      (fillOrder cfg nested order price quantity ts source consumed earlier).run s =
        (((announceFill cfg nested fill previous position).run s₂).1.map fun _ => fill,
          ((announceFill cfg nested fill previous position).run s₂).2) := by
  dsimp only
  rw [fillOrder, run_bind_ok (run_newFillReportWithSource ..), run_bind, applyFillAndPosition,
    run_get_bind, run_bind, booked]
  generalize hm : (⟨order, source, price, consumed, earlier,
    madeFill cfg s order price quantity ts source⟩ : Matched) = m
  have hfill : madeFill cfg s order price quantity ts source = m.fill := by rw [← hm]
  match hrun : (bookFill m).run { s with
    drawn := (slippage cfg s order price quantity ts source).2
    nextTrade := s.nextTrade + 1 } with
  | (.error err, s₂) => exact .inl ⟨err, rfl⟩
  | (.ok (), s₂) =>
    right
    refine ⟨s.cache.positionByInstrument m.fill.accountID m.fill.instrumentID,
      nextPosition s.cache m.fill, ?_⟩
    dsimp only
    rw [hfill]
    match (announceFill cfg nested m.fill _ _).run s₂ with
    | (.ok (), s₃) => rfl
    | (.error err, s₃) => rfl

namespace Inner

variable {cfg : Config} {nested : Nested} {V : Runtime → OrderStatusReport → Prop}
  {I : Runtime → Prop} {R : Runtime → Runtime → Prop} (h : Inner cfg nested V I R)

include h

/-- A step with the fill, and then what the fill causes. -/
theorem follows_fillOrder {s : Runtime} (hs : I s) {order : OrderStatusReport}
    {price quantity : Decimal} {ts : Time} {source : FillSource} {consumed : Decimal}
    {earlier : List (Decimal × FillReport)}
    (hstep : R s (booked s ⟨order, source, price, consumed, earlier,
      madeFill cfg s order price quantity ts source⟩
      (slippage cfg s order price quantity ts source).2)) :
    Follows R (fillOrder cfg nested order price quantity ts source consumed earlier) s := by
  have hs₂ := h.stable _ _ hstep hs
  unfold Follows
  rcases run_fillOrder cfg nested s order price quantity ts source consumed earlier with
    ⟨err, hrun⟩ | ⟨previous, position, hrun⟩
  · rw [hrun]
    exact .single hstep
  · rw [hrun]
    exact (ReflTransGen.single hstep).trans
      (h.goes_announceFill (h.goes_afterFill _) previous position _ hs₂)

theorem goes_recordConsumption (id : InstrumentID) (price : Decimal) {quantity : Decimal}
    (hpos : 0 < quantity) : Goes I R (recordConsumption id price quantity) := fun s _ =>
  Follows.single (h.plain (.consumed s id price hpos))

end Inner

/-- The quantity that may be matched is at most what is open. -/
theorem matchQuantity_le (c : Cache) (order : OrderStatusReport)
    (hpos : 0 < matchQuantity c order) : matchQuantity c order ≤ openQuantity order := by
  unfold matchQuantity at hpos ⊢
  dsimp only at hpos ⊢
  split_ifs at hpos ⊢ with hwhole hreducible
  · exact le_rfl
  · exact min_le_left ..
  · exact absurd hpos (lt_irrefl 0)

/-- A fill that is made of a match at the moment it is found. -/
theorem fits_single {cfg : Config} {V : OrderStatusReport → Prop} {s : Runtime}
    {order : OrderStatusReport} {price quantity : Decimal} {ts : Time} {source : FillSource}
    {consumed : Decimal} (hV : V order) (hopen : order.status.isOpen = true)
    (horigin : Origin s.market order source price ts) (hpos : 0 < quantity)
    (hle : quantity ≤ openQuantity order) (hsource : source ≠ .orderBook) :
    Fits cfg V s ⟨order, source, price, consumed, [],
      madeFill cfg s order price quantity ts source⟩ where
  admissible := hV
  isOpen := hopen
  fill := ⟨_, _, _, rfl⟩
  origin := by simpa [madeFill, rawFill] using horigin
  quantity_pos := by simpa [madeFill, rawFill] using hpos
  quantity_le := by simpa [madeFill, rawFill, Matched.earlierQuantity] using hle
  level_le := fun _ hbook _ => absurd hbook hsource

/-- `Inner`, and the fills themselves. -/
structure Closed (cfg : Config) (nested : Nested) (V : Runtime → OrderStatusReport → Prop)
    (I : Runtime → Prop) (R : Runtime → Runtime → Prop) : Prop
    extends Inner cfg nested V I R where
  single : ∀ {r m} drawn, I r → Fits cfg (V r) r m → m.earlier = [] →
    m.fill.quantity ≤ matchQuantity r.cache m.order → R r (booked r m drawn)
  book : ∀ {o}, o.status.isOpen = true →
    Goes (fun r => I r ∧ V r o) R (matchAgainstBook cfg nested o)

theorem Inner.knowing {cfg : Config} {nested : Nested} {V : Runtime → OrderStatusReport → Prop}
    {I : Runtime → Prop} {R : Runtime → Runtime → Prop} (h : Inner cfg nested V I R)
    (o : OrderStatusReport) : Inner cfg nested V (fun r => I r ∧ V r o) R :=
  { h with
    modified := fun hr => h.modified hr.1
    stored := fun hr => h.stored hr.1
    consumed := fun hr => h.consumed hr.1
    stable := h.stable.and (h.kept o)
    tell := fun event t s hs => h.tell event t s hs.1
    process := fun env s hs => h.process env s hs.1
    matchOrder := fun s hs => h.matchOrder s ⟨hs.1.1, hs.2⟩ }

/-- What is known of one version may be taken into the invariant. -/
theorem Closed.knowing {cfg : Config} {nested : Nested} {V : Runtime → OrderStatusReport → Prop}
    {I : Runtime → Prop} {R : Runtime → Runtime → Prop} (h : Closed cfg nested V I R)
    (o : OrderStatusReport) : Closed cfg nested V (fun r => I r ∧ V r o) R :=
  { h.toInner.knowing o with
    single := fun drawn hr => h.single drawn hr.1
    book := fun hopen s hs => h.book hopen s ⟨hs.1.1, hs.2⟩ }

namespace Closed

variable {cfg : Config} {nested : Nested} {V : Runtime → OrderStatusReport → Prop}
  {I : Runtime → Prop} {R : Runtime → Runtime → Prop} (h : Closed cfg nested V I R) {o : OrderStatusReport}

include h

/-! ### Matching against one source -/

variable {source : FillSource} {ts : Time}

theorem follows_single {s : Runtime} (hs : I s) {price quantity : Decimal}
    {consumed : Decimal} (hV : ∀ {r}, I r → V r o) (hopen : o.status.isOpen = true)
    (horigin : Origin s.market o source price ts) (hpos : 0 < quantity)
    (hle : quantity ≤ matchQuantity s.cache o) (hsource : source ≠ .orderBook) :
    Follows R (fillOrder cfg nested o price quantity ts source consumed []) s := by
  have hopenq := hle.trans (matchQuantity_le s.cache o (hpos.trans_le hle))
  refine h.follows_fillOrder hs (h.single _ hs
    (fits_single (hV hs) hopen horigin hpos hopenq hsource) rfl ?_)
  simpa [madeFill, rawFill] using hle

/-- Drawing a number changes nothing else. -/
theorem follows_drawTouch {s : Runtime} (hs : I s) {price quantity : Decimal}
    {k : Bool → Prog Runtime Err Bool}
    (hk : ∀ touched drawn, I { s with drawn := drawn } →
      Follows R (k touched) { s with drawn := drawn }) :
    Follows R (drawTouch cfg o price quantity ts source >>= k) s := by
  obtain ⟨touched, drawn, hrun⟩ := run_drawTouch cfg s o price quantity ts source
  have hstep : R s { s with drawn := drawn } :=
    h.plain (.internal ⟨rfl, rfl, rfl, rfl, rfl, rfl, rfl, rfl, rfl, rfl, rfl⟩ (.of_eq rfl))
  have hdraw : Follows R (drawTouch cfg o price quantity ts source) s := by
    unfold Follows
    rw [hrun]
    exact ReflTransGen.single hstep
  refine hdraw.bind fun touched' s' hrun' _ => ?_
  rw [hrun] at hrun'
  obtain ⟨hok, rfl⟩ := Prod.mk.inj hrun'
  cases hok
  exact hk touched drawn (h.stable _ _ hstep hs)

theorem goes_matchMarketOrderAgainstTicker (hV : ∀ {r}, I r → V r o) (hopen : o.status.isOpen = true)
    (htype : o.type.isMarketStyle = true) :
    Goes I R (matchMarketOrderAgainstTicker cfg nested o) := by
  refine Goes.get_bind fun s hs => ?_
  split
  · exact Goes.pure () s hs
  · next ticker hdata =>
      split_ifs with hnone
      · exact Goes.pure () s hs
      · simp only [not_or, not_not] at hnone
        exact Goes.bind_at h.stable hs (h.follows_single hs hV hopen (.ticker hdata htype)
          hnone.2 le_rfl (by decide)) fun _ => Goes.pure ()

theorem goes_matchAgainstQuote (hV : ∀ {r}, I r → V r o) (hopen : o.status.isOpen = true) :
    Goes I R (matchAgainstQuote cfg nested o) := by
  refine Goes.get_bind fun s hs => ?_
  split
  · exact Goes.pure false s hs
  · next quote hdata =>
      dsimp only
      split_ifs with hnone
      · exact Goes.pure false s hs
      · simp only [not_or, not_not, Bool.not_eq_false] at hnone
        refine h.follows_drawTouch hs fun touched drawn hs' => ?_
        split_ifs
        · refine Goes.bind_at h.stable hs' (h.follows_single hs' hV hopen
            (.quoteTick hdata hnone.2.2.1) hnone.2.2.2.2 (min_le_left ..) (by decide))
            fun _ => ?_
          exact Goes.bind h.stable (h.goes_recordConsumption _ _ hnone.2.2.2.2)
            fun _ => Goes.pure true
        · exact Goes.pure false _ hs'

theorem follows_fillAtPrice {s : Runtime} (hs : I s) {price : Decimal}
    (hV : ∀ {r}, I r → V r o) (hopen : o.status.isOpen = true)
    (horigin : Origin s.market o source price ts) (hsource : source ≠ .orderBook) :
    Follows R (fillAtPrice cfg nested o price ts source) s := by
  refine Follows.get_bind ?_
  dsimp only
  split_ifs with hpos
  · refine h.follows_drawTouch hs fun touched drawn hs' => ?_
    split_ifs
    · exact Goes.bind_at h.stable hs' (h.follows_single hs' hV hopen horigin hpos le_rfl
        hsource) fun _ => Goes.pure true
    · exact Goes.pure false _ hs'
  · exact Goes.pure false s hs

theorem goes_matchAgainstTrade (hV : ∀ {r}, I r → V r o) (hopen : o.status.isOpen = true) :
    Goes I R (matchAgainstTrade cfg nested o) := by
  refine Goes.get_bind fun s hs => ?_
  split
  · exact Goes.pure false s hs
  · next trade hdata =>
      split_ifs with hnone
      · exact Goes.pure false s hs
      · simp only [not_or, not_not, Bool.not_eq_false] at hnone
        exact h.follows_fillAtPrice hs hV hopen (.tradeTick hdata hnone.2) (by decide)

theorem goes_matchAgainstBar (hV : ∀ {r}, I r → V r o) (hopen : o.status.isOpen = true) :
    Goes I R (matchAgainstBar cfg nested o) := by
  refine Goes.get_bind fun s hs => ?_
  split
  · exact Goes.pure false s hs
  · next bar hdata =>
      split
      · exact Goes.pure false s hs
      · next price hprice =>
          exact h.follows_fillAtPrice hs hV hopen (.bar hdata hprice) (by decide)

/-! ### Matching an order -/

theorem goes_book (hV : ∀ {r}, I r → V r o) (hopen : o.status.isOpen = true) :
    Goes I R (matchAgainstBook cfg nested o) := fun s hs => h.book hopen s ⟨hs, hV hs⟩

theorem goes_matchAtMarket (hV : ∀ {r}, I r → V r o) (hopen : o.status.isOpen = true)
    (htype : o.type.isMarketStyle = true) : Goes I R (matchAtMarket cfg nested o) := by
  refine Goes.bind h.stable (h.goes_book hV hopen) fun matched => ?_
  split_ifs
  · exact h.goes_cancelUnfilledRemainder _ _
  refine Goes.bind h.stable (h.goes_matchAgainstQuote hV hopen) fun matched => ?_
  split_ifs
  · exact h.goes_cancelUnfilledRemainder _ _
  refine Goes.bind h.stable (h.goes_matchAgainstTrade hV hopen) fun matched => ?_
  split_ifs
  · exact h.goes_cancelUnfilledRemainder _ _
  refine Goes.bind h.stable (h.goes_matchAgainstBar hV hopen) fun matched => ?_
  split_ifs
  · exact h.goes_cancelUnfilledRemainder _ _
  · exact h.goes_matchMarketOrderAgainstTicker hV hopen htype

theorem goes_matchAtLimit (hV : ∀ {r}, I r → V r o) (hopen : o.status.isOpen = true) :
    Goes I R (matchAtLimit cfg nested o) := by
  refine Goes.bind h.stable (h.goes_book hV hopen) fun _ => ?_
  refine Goes.bind h.stable (h.goes_matchAgainstQuote hV hopen) fun _ => ?_
  refine Goes.bind h.stable (h.goes_matchAgainstTrade hV hopen) fun _ => ?_
  exact Goes.bind h.stable (h.goes_matchAgainstBar hV hopen) fun _ => Goes.pure ()

omit h in
theorem goes_orElseMatch (matched : Bool) {next : Prog Runtime Err Bool} (hnext : Goes I R next) :
    Goes I R (orElseMatch matched next) := by
  unfold orElseMatch
  split_ifs
  · exact Goes.pure true
  · exact hnext

theorem goes_restAt (order : OrderStatusReport) (price : Decimal) :
    Goes I R (restAt nested order price) := by
  refine Goes.get_bind fun s hs => ?_
  split
  · exact Goes.pure () s hs
  · next resting hfound =>
      split_ifs with hclosed
      · exact Goes.pure () s hs
      · simp only [not_or, Bool.not_eq_false] at hclosed
        refine h.follows_apply_order hs ?_
        exact .fresh (cached_order hfound) hclosed.1
          ⟨rfl, rfl, rfl, rfl, rfl, rfl, rfl, .inl rfl⟩ (.inl rfl)

theorem goes_matchMarketToLimit (hV : ∀ {r}, I r → V r o) (hopen : o.status.isOpen = true)
    (htype : o.type.isMarketStyle = true) : Goes I R (matchMarketToLimit cfg nested o) := by
  refine Goes.get_bind' fun r => ?_
  refine Goes.bind h.stable (h.goes_book hV hopen).attempt fun booked => ?_
  refine Goes.bind h.stable (goes_orElseMatch _ (h.goes_matchAgainstQuote hV hopen))
    fun matched => ?_
  refine Goes.bind h.stable (goes_orElseMatch _ (h.goes_matchAgainstTrade hV hopen))
    fun matched => ?_
  refine Goes.bind h.stable (goes_orElseMatch _ (h.goes_matchAgainstBar hV hopen))
    fun matched => ?_
  split_ifs
  · exact h.goes_restAt _ _
  · exact Goes.bind h.stable (h.goes_matchMarketOrderAgainstTicker hV hopen htype)
      fun _ => h.goes_restAt _ _

/-! ### Triggers -/

omit h in
theorem run_isTriggered (policy : OrderStatusReport → Decimal → Bool) (s : Runtime)
    (hstatus : o.status ≠ .triggered) : ∃ triggered, (isTriggered o policy).run s =
      (.ok triggered, { s with trace := s.trace ++ [.tested o s.cache] }) := by
  unfold isTriggered
  rw [if_neg hstatus]
  exact ⟨_, rfl⟩

omit h in
/-- Testing a trailing stop changes, beside the trace, what it trails. -/
theorem run_isTrailingTriggered {s : Runtime} (hstatus : o.status ≠ .triggered) :
    ∃ triggered trailing triggers, (isTrailingTriggered o).run s =
      (.ok triggered, { s with
        trace := s.trace ++ [.tested o s.cache]
        trailing := trailing
        trailingTriggers := triggers }) := by
  unfold isTrailingTriggered
  rw [if_neg hstatus, run_get_bind, run_bind_ok (run_record _ s)]
  split
  · exact ⟨_, _, _, rfl⟩
  · split
    · exact ⟨_, _, _, rfl⟩
    · dsimp only
      rw [run_bind_ok (run_modify _ _)]
      split
      · exact ⟨_, _, _, rfl⟩
      · dsimp only
        rw [run_bind_ok (run_modify _ _)]
        split
        · exact ⟨_, _, _, rfl⟩
        · exact ⟨_, _, _, rfl⟩

/-- Mark an order as triggered, and go on with it. -/
theorem follows_markTriggered {s : Runtime} {c : Cache} {marked : OrderStatusReport}
    {k : OrderStatusReport → Prog Runtime Err Unit} (hs : I s) (hV : ∀ {r}, I r → V r o)
    (hopen : o.status.isOpen = true) (hstatus : o.status ≠ .triggered)
    (htested : s.trace.getLast? = some (.tested o c)) (hrevises : Revises o marked)
    (hmarked : marked.status = o.status) (htype : marked.type = o.type)
    (hk : ∀ o', (∀ {r}, I r → V r o') → o'.status.isOpen = true → o'.type = o.type → Goes I R (k o')) :
    Follows R (markTriggered nested marked >>= k) s := by
  have hrev : Revises o { marked with status := .triggered } := by
    refine ⟨hrevises.accountID, hrevises.orderID, hrevises.instrumentID,
      hrevises.clientOrderID, hrevises.venueOrderID, hrevises.quantity,
      hrevises.filledQuantity, ?_⟩
    rcases hrevises.leavesQuantity with hsame | ⟨-, hterminal⟩
    · exact .inl hsame
    · rw [hmarked] at hterminal
      rw [OrderStatus.isOpen, hterminal] at hopen
      simp at hopen
  have hV' : ∀ {r}, I r → V r { marked with status := .triggered } := fun hr =>
    h.triggered (hV hr) hopen hrev rfl
  unfold markTriggered
  rw [if_neg (by rwa [hmarked])]
  change Follows R ((Backtest.apply nested (.ofOrder { marked with status := .triggered }) >>=
    fun _ => pure { marked with status := .triggered }) >>= k) s
  refine Follows.bind (Goes.bind_at h.stable hs
    (h.follows_apply_order hs (.triggered (hV hs) hopen hrev rfl htested)) fun _ => Goes.pure _) ?_
  intro o' s' hrun hstar
  obtain ⟨_, s₁, -, hpure⟩ := run_bind_eq_ok.mp hrun
  obtain ⟨hok, -⟩ := Prod.mk.inj hpure
  cases hok
  exact hk _ hV' rfl htype s' (h.stable.star hstar hs)

/-- Test the trigger of an order, mark it, and go on with it. -/
theorem goes_matchTriggered {policy : OrderStatusReport → Decimal → Bool}
    {k : OrderStatusReport → Prog Runtime Err Unit} (hV : ∀ {r}, I r → V r o) (hopen : o.status.isOpen = true)
    (hk : ∀ o', (∀ {r}, I r → V r o') → o'.status.isOpen = true → o'.type = o.type → Goes I R (k o')) :
    Goes I R (do
      let triggered ← isTriggered o policy
      if triggered then do
        let order ← markTriggered nested o
        k order
      else pure ()) := by
  intro s hs
  by_cases hstatus : o.status = .triggered
  · have hrun : (isTriggered o policy).run s = (.ok true, s) := by
      rw [isTriggered, if_pos hstatus]
      rfl
    have hmark : (markTriggered nested o).run s = (.ok o, s) := by
      rw [markTriggered, if_pos hstatus]
      rfl
    unfold Follows
    rw [run_bind_ok hrun, if_pos rfl, run_bind_ok hmark]
    exact hk o hV hopen rfl s hs
  · obtain ⟨triggered, hrun⟩ := run_isTriggered policy s hstatus
    have hstep : R s { s with trace := s.trace ++ [.tested o s.cache] } :=
      h.plain (.tested s o hopen hstatus)
    have hs' := h.stable _ _ hstep hs
    unfold Follows
    rw [run_bind_ok hrun]
    refine (ReflTransGen.single hstep).trans ?_
    split_ifs
    · exact h.follows_markTriggered hs' hV hopen hstatus List.getLast?_concat (.refl o) rfl rfl hk
    · exact ReflTransGen.refl

omit h in
theorem withTrailingTrigger_eq (r : Runtime) (order : OrderStatusReport) :
    ∃ price, withTrailingTrigger r order = { order with triggerPrice := price } := by
  unfold withTrailingTrigger
  split
  · exact ⟨_, rfl⟩
  · exact ⟨_, rfl⟩

theorem goes_matchTrailing {k : OrderStatusReport → Prog Runtime Err Unit} (hV : ∀ {r}, I r → V r o)
    (hopen : o.status.isOpen = true)
    (hk : ∀ o', (∀ {r}, I r → V r o') → o'.status.isOpen = true → o'.type = o.type → Goes I R (k o')) :
    Goes I R (do
      let triggered ← isTrailingTriggered o
      if triggered then do
        let r ← Prog.get
        let order ← markTriggered nested (withTrailingTrigger r o)
        k order
      else pure ()) := by
  intro s hs
  by_cases hstatus : o.status = .triggered
  · have hrun : (isTrailingTriggered o).run s = (.ok true, s) := by
      rw [isTrailingTriggered, if_pos hstatus]
      rfl
    obtain ⟨price, htrail⟩ := withTrailingTrigger_eq s o
    have hmark : (markTriggered nested (withTrailingTrigger s o)).run s =
        (.ok (withTrailingTrigger s o), s) := by
      rw [htrail, markTriggered, if_pos hstatus]
      rfl
    have hV' : ∀ {r}, I r → V r (withTrailingTrigger s o) := by
      intro r hr
      rw [htrail]
      exact h.triggered (hV hr) hopen ⟨rfl, rfl, rfl, rfl, rfl, rfl, rfl, .inl rfl⟩ hstatus
    unfold Follows
    rw [run_bind_ok hrun, if_pos rfl, run_get_bind, run_bind_ok hmark]
    refine hk _ hV' ?_ ?_ s hs
    · rw [htrail]
      exact hopen
    · rw [htrail]
  · obtain ⟨triggered, trailing, triggers, hrun⟩ := run_isTrailingTriggered (s := s) hstatus
    have htest : R s { s with trace := s.trace ++ [.tested o s.cache] } :=
      h.plain (.tested s o hopen hstatus)
    have hstep : R { s with trace := s.trace ++ [.tested o s.cache] }
        { s with
          trace := s.trace ++ [.tested o s.cache]
          trailing := trailing
          trailingTriggers := triggers } :=
      h.plain (.internal ⟨rfl, rfl, rfl, rfl, rfl, rfl, rfl, rfl, rfl, rfl, rfl⟩ (.of_eq rfl))
    have hs' := h.stable _ _ hstep (h.stable _ _ htest hs)
    unfold Follows
    rw [run_bind_ok hrun]
    refine ((ReflTransGen.single htest).tail hstep).trans ?_
    split_ifs
    · obtain ⟨price, htrail⟩ := withTrailingTrigger_eq
        { s with
          trace := s.trace ++ [.tested o s.cache]
          trailing := trailing
          trailingTriggers := triggers } o
      rw [run_get_bind, htrail]
      exact h.follows_markTriggered hs' hV hopen hstatus List.getLast?_concat
        ⟨rfl, rfl, rfl, rfl, rfl, rfl, rfl, .inl rfl⟩ rfl rfl hk
    · exact ReflTransGen.refl

theorem goes_matchByType (hV : ∀ {r}, I r → V r o) (hopen : o.status.isOpen = true) :
    Goes I R (matchByType cfg nested o) := by
  have hmarket : ∀ {t}, o.type = t → t.isMarketStyle = true → ∀ o', (∀ {r}, I r → V r o') →
      o'.status.isOpen = true → o'.type = o.type → Goes I R (matchAtMarket cfg nested o') := by
    intro t htype hstyle o' hV' hopen' htype'
    exact h.goes_matchAtMarket hV' hopen' (by rw [htype', htype, hstyle])
  have hlimit : ∀ o', (∀ {r}, I r → V r o') → o'.status.isOpen = true → o'.type = o.type →
      Goes I R (matchAtLimit cfg nested o') := fun o' hV' hopen' _ =>
    h.goes_matchAtLimit hV' hopen'
  unfold matchByType
  split
  · next htype => exact hmarket htype rfl o hV hopen rfl
  · next htype => exact h.goes_matchMarketToLimit hV hopen (by rw [htype]; rfl)
  · refine Goes.bind h.stable (h.goes_matchAtLimit hV hopen) fun _ => ?_
    unfold cancelImmediateRemainder
    split_ifs
    · exact Goes.pure ()
    · exact h.goes_cancelUnfilledRemainder _ _
  · next htype => exact h.goes_matchTriggered hV hopen (hmarket htype rfl)
  · next htype => exact h.goes_matchTriggered hV hopen (hmarket htype rfl)
  · exact h.goes_matchTriggered hV hopen hlimit
  · exact h.goes_matchTriggered hV hopen hlimit
  · next htype => exact h.goes_matchTrailing hV hopen (hmarket htype rfl)
  · exact h.goes_matchTrailing hV hopen hlimit
  · exact Goes.pure ()

theorem goes_matchOrder (hV : ∀ {r}, I r → V r o) : Goes I R (Backtest.matchOrder cfg nested o) := by
  refine Goes.get_bind' fun r => ?_
  split_ifs with hclosed
  · exact Goes.pure ()
  · exact h.goes_cancelUnfilledRemainder _ _
  · exact h.goes_cancelUnfilledRemainder _ _
  · simp only [not_or, Bool.not_eq_false] at hclosed
    exact h.goes_matchByType hV hclosed.1

/-! ### Submitting orders -/

theorem goes_submitOrder (order : SubmitOrder) : Goes I R (submitOrder cfg nested order) := by
  intro s hs
  refine (h.goes_acceptOrder order s hs).bind fun report s' hrun hstar => ?_
  have hV : ∀ {r}, I r → V r report := fun {r} _ => h.admissible_of_acceptOrder hrun r
  exact Goes.bind h.stable (h.goes_matchOrder hV) (fun _ => Goes.pure _) s'
    (h.stable.star hstar hs)

theorem goes_submitEach (orders : List SubmitOrder) :
    Goes I R (submitEach cfg nested orders) := by
  induction orders with
  | nil => exact Goes.pure []
  | cons order orders ih =>
    refine Goes.bind h.stable (h.goes_submitOrder order) fun _ => ?_
    exact Goes.bind h.stable ih fun _ => Goes.pure _

theorem goes_submitOrderList (list : OrderList) :
    Goes I R (submitOrderList cfg nested list) := by
  refine Goes.bind h.stable (Goes.lift _) fun _ => ?_
  exact Goes.bind h.stable (Goes.modify fun r _ => h.plain (.listed r _))
    fun _ => h.goes_submitEach _

/-! ### Strategies -/

theorem goes_setTimer (name : String) (interval : ℤ) : Goes I R (setTimer name interval) := by
  refine fun s _ => Follows.bind (Goes.lift _ s ‹_›) fun _ s₁ hrun _ => Follows.single ?_
  obtain ⟨hvalid, rfl⟩ := Prod.mk.inj hrun
  exact h.plain (.internal ⟨rfl, rfl, rfl, rfl, rfl, rfl, rfl, rfl, rfl, rfl, rfl⟩
    (retimed_set s hvalid))

theorem goes_cancelTimer (name : String) : Goes I R (cancelTimer name) :=
  Goes.modify fun r _ => h.plain
    (.internal ⟨rfl, rfl, rfl, rfl, rfl, rfl, rfl, rfl, rfl, rfl, rfl⟩ (retimed_cancel r name))

theorem goes_execute (id : StrategyID) (command : Command) :
    Goes I R (execute cfg nested id command) := by
  refine Goes.get_bind' fun r => ?_
  cases command with
  | setTimer name interval =>
    exact Goes.bind h.stable (h.goes_setTimer _ _) fun _ => Goes.pure _
  | cancelTimer name => exact Goes.bind h.stable (h.goes_cancelTimer _) fun _ => Goes.pure _
  | submitOrder order => exact Goes.bind h.stable (h.goes_submitOrder _) fun _ => Goes.pure _
  | submitOrderList list =>
    exact Goes.bind h.stable (h.goes_submitOrderList _) fun _ => Goes.pure _
  | modifyOrder modify => exact Goes.bind h.stable (h.goes_modifyOrder _) fun _ => Goes.pure _
  | cancelOrder cancel => exact Goes.bind h.stable (h.goes_cancelOrder _) fun _ => Goes.pure _
  | batchCancelOrders batch =>
    exact Goes.bind h.stable (h.goes_batchCancelOrders _) fun _ => Goes.pure _
  | cancelAllOrders cancelAll =>
    exact Goes.bind h.stable (h.goes_cancelAllOrders _) fun _ => Goes.pure _
  | queryOrder query => exact Goes.bind h.stable (h.goes_queryOrder _) fun _ => Goes.pure _
  | queryAccount query => exact Goes.bind h.stable (h.goes_queryAccount _) fun _ => Goes.pure _

theorem goes_runScript (id : StrategyID) (execution : Bool) (script : Script) :
    Goes I R (runScript (execute cfg nested id) id execution script) := by
  induction script with
  | done result => exact Goes.lift _
  | remember memory next ih =>
    refine Goes.bind h.stable (Goes.modify fun r _ => h.plain (.internal ?_ (.of_eq rfl)))
      fun _ => ih
    exact ⟨rfl, rfl, rfl, rfl, rfl, rfl, rfl, rfl, rfl, rfl, rfl⟩
  | command command next ih =>
    refine Goes.bind h.stable (Goes.modify fun r _ => h.plain (.commanded r execution))
      fun _ => ?_
    refine Goes.bind h.stable (h.goes_execute id command).attempt fun reply => ?_
    exact Goes.get_bind' fun r => ih reply _

theorem goes_callStrategy (s : Strategy) (execution : Bool) (script : View → Script) :
    Goes I R (callStrategy cfg nested s execution script) := by
  refine Goes.get_bind fun r hr => ?_
  refine Goes.bind_at h.stable hr ?_ fun _ => h.goes_runScript _ _ _
  exact Follows.single (h.plain (.callback r))

end Closed

end Operations

end Exchanges.Backtest
