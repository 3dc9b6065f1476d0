import Exchanges.Platform.Node

/-!
Order queries of the live node.

A query is answered from the cache if the cache knows one of its ids. Otherwise the
execution engine asks the client of the account, either for the one order or, if the
client cannot do that, for all orders of the instrument. If the engine finds the request
not supported, the node asks for all orders itself. What a client reports is filled in
from the query before the node compares it with the query, and the answer to a question
for one order is not compared at all. So a report without ids may be taken for the order
that was asked for.
-/

namespace Exchanges.Platform

open Exchanges.Lib Exchanges.Model Exchanges.Execution

set_option linter.unusedSectionVars false

/-! ### The query -/

/-- What the client of the account answers, if there is one: to the question for the
order, if it takes such questions; to the engine's request for all orders; and to that
of the node. -/
structure Answers where
  connected : Bool := true
  querier : Option (Except Err OrderStatusReport) := none
  listed : Except Err (List OrderStatusReport) := .ok []
  listedAgain : Except Err (List OrderStatusReport) := .ok []

/-- The node, and the reports of the client that were taken for the order. -/
structure Querying where
  node : Node
  taken : List OrderStatusReport := []

/-- A value that stands in for a blank one. -/
def orElse {α : Type} [DecidableEq α] (blank value other : α) : α :=
  if value = blank then other else value

def findQueriedOrder (c : Cache) (q : QueryOrder) : Option OrderStatusReport :=
  c.findByIDs q.accountID q.orderID q.clientOrderID q.venueOrderID

def fillQueriedReport (report : OrderStatusReport) (q : QueryOrder) : OrderStatusReport :=
  { report with
    metadata := q.metadata.withDefaults report.metadata
    accountID := orElse "" report.accountID q.accountID
    instrumentID := orElse {} report.instrumentID q.instrumentID
    orderID := orElse "" report.orderID q.orderID
    clientOrderID := orElse "" report.clientOrderID q.clientOrderID
    venueOrderID := orElse "" report.venueOrderID q.venueOrderID }

/-- `matchesOrderQuery`, and `matchesOrderReportCommand` for the command of a query. -/
def matchesOrderQuery (report : OrderStatusReport) (q : QueryOrder) : Bool :=
  if q.orderID ≠ "" ∧ report.orderID ≠ q.orderID then false
  else if q.clientOrderID ≠ "" ∧ report.clientOrderID ≠ q.clientOrderID then false
  else if q.venueOrderID ≠ "" ∧ report.venueOrderID ≠ q.venueOrderID then false
  else decide (report.accountID = q.accountID ∧ report.instrumentID = q.instrumentID)

def claimExternalOrderReport (claims : InstrumentID → StrategyID) (report : OrderStatusReport) :
    OrderStatusReport :=
  if report.metadata.strategyID ≠ "" ∨ report.clientOrderID ≠ "" then report
  else { report with metadata := { report.metadata with
    strategyID := orElse "" (claims report.instrumentID) "EXTERNAL" } }

namespace Querying

variable [DecimalPackage] (m : Manager) (claims : InstrumentID → StrategyID) (a : Answers)
  (handle : OrderStatusReport → Prog Node Err Unit) (q : QueryOrder)

def onNode {α : Type} (p : Prog Node Err α) : Prog Querying Err α :=
  p.zoom (·.node) fun n s => { s with node := n }

/-- A report is taken, and something is done with it. -/
def take (r : OrderStatusReport) (p : Prog Node Err Unit) : Prog Querying Err Unit := do
  Prog.modify fun s => { s with taken := s.taken ++ [r] }
  onNode p

/-- The loop of the engine's `GenerateOrderStatusReports`. -/
def applyListed (filtered : List OrderStatusReport) :
    List OrderStatusReport → Prog Querying Err (List OrderStatusReport)
  | [] => pure filtered
  | report :: reports =>
    let report := claimExternalOrderReport claims report
    if matchesOrderQuery report q then do
      take report (Node.onCache (applyOrderReport m report))
      applyListed (filtered ++ [report]) reports
    else applyListed filtered reports

def queryOrderFromReports : Prog Querying Err OrderStatusReport := do
  Prog.lift (reject (q.accountID = "") ⟨.invalidAccount, "", []⟩)
  Prog.lift q.instrumentID.validate
  let reports ← Prog.lift a.listed
  let filtered ← applyListed m claims q [] reports
  match filtered with
  | [] => Prog.fail (invalidOrder "order report not found")
  | report :: _ => pure report

/-- `Engine.QueryOrder`. -/
def engineQueryOrder : Prog Querying Err OrderStatusReport := do
  Prog.lift q.validate
  let s ← Prog.get
  match (if q.venueOrderID ≠ "" ∧ q.orderID = "" ∧ q.clientOrderID = "" then
    findQueriedOrder s.node.cache q else none) with
  | some report => pure report
  | none =>
    if a.connected then
      match a.querier with
      | none => queryOrderFromReports m claims a q
      | some (.error err) =>
        if err.sentinel = .notSupported then queryOrderFromReports m claims a q
        else Prog.fail err
      | some (.ok report) => do
        take report (Node.onCache (applyOrderReport m report))
        pure report
    else Prog.fail ⟨.clientNotFound, "account", [q.accountID]⟩

/-- The loop of `Node.QueryOrder`. -/
def takeMatching : List OrderStatusReport → Prog Querying Err OrderStatusReport
  | [] => Prog.fail (invalidOrder "order not found")
  | report :: reports =>
    if matchesOrderQuery (fillQueriedReport report q) q then do
      take report (Node.applyAndPublish handle { order := some (fillQueriedReport report q) })
      pure (fillQueriedReport report q)
    else takeMatching reports

/-- `Node.QueryOrder`. -/
def queryOrder : Prog Querying Err OrderStatusReport := do
  Prog.lift q.validate
  let s ← Prog.get
  match findQueriedOrder s.node.cache q with
  | some order => pure (fillQueriedReport order q)
  | none => do
    match ← (engineQueryOrder m claims a q).attempt with
    | .ok report => do
      onNode (Node.applyAndPublish handle { order := some (fillQueriedReport report q) })
      pure (fillQueriedReport report q)
    | .error err =>
      if err.sentinel = .notSupported then
        if a.connected then do
          let reports ← Prog.lift a.listedAgain
          takeMatching handle q reports
        else Prog.fail ⟨.notSupported, "no execution client for account", [q.accountID]⟩
      else Prog.fail err

/-! ### What is taken for the order -/

/-- The report has one of the ids that were asked for. -/
def Identifies (q : QueryOrder) (r : OrderStatusReport) : Prop :=
  q.orderID ≠ "" ∧ r.orderID = q.orderID ∨
    q.clientOrderID ≠ "" ∧ r.clientOrderID = q.clientOrderID ∨
    q.venueOrderID ≠ "" ∧ r.venueOrderID = q.venueOrderID

instance (q : QueryOrder) (r : OrderStatusReport) : Decidable (Identifies q r) :=
  inferInstanceAs (Decidable (_ ∨ _))

/-- Whatever is taken from the client has one of the ids, and so has the order that is
returned, which is one that was taken or one of the cache. -/
def Sound (q : QueryOrder) (c : Cache) (result : Except Err OrderStatusReport)
    (taken : List OrderStatusReport) : Prop :=
  (∀ r ∈ taken, Identifies q r) ∧ ∀ report, result = .ok report →
    ∃ r, Identifies q r ∧ report = fillQueriedReport r q ∧
      (r ∈ taken ∨ c.order q.accountID r.orderID = some r)

section

variable {m claims a handle q}

theorem run_take (r : OrderStatusReport) (p : Prog Node Err Unit) (s : Querying) :
    ∃ n, (take r p).run s = ((p.run s.node).1, { node := n, taken := s.taken ++ [r] }) :=
  ⟨_, rfl⟩

theorem identifies_of_matches (hvalid : q.validate = .ok ()) {r : OrderStatusReport}
    (h : matchesOrderQuery r q = true) : Identifies q r := by
  simp only [QueryOrder.validate, except_seq_eq_ok, reject_eq_ok, not_or, not_and] at hvalid
  unfold matchesOrderQuery at h
  split_ifs at h with horder hclient hvenue
  by_cases ho : q.orderID = ""
  · by_cases hc : q.clientOrderID = ""
    · have hv := hvalid.1.2 ho hc
      exact .inr (.inr ⟨hv, not_not.mp fun hne => hvenue ⟨hv, hne⟩⟩)
    · exact .inr (.inl ⟨hc, not_not.mp fun hne => hclient ⟨hc, hne⟩⟩)
  · exact .inl ⟨ho, not_not.mp fun hne => horder ⟨ho, hne⟩⟩

/-- An order of the cache that is found has the id that it was found by. -/
theorem identifies_of_cached {c : Cache} (hc : Cache.Reachable c) {r : OrderStatusReport}
    (h : findQueriedOrder c q = some r) :
    Identifies q r ∧ c.order q.accountID r.orderID = some r := by
  have hindexed := hc.consistent.orders
  rw [findQueriedOrder, Cache.findByIDs, Option.or_eq_some_iff, Option.or_eq_some_iff] at h
  rcases h with h | ⟨-, h | ⟨-, h⟩⟩
  · split_ifs at h with hne
    obtain ⟨-, hid, -⟩ := hindexed.keyed _ _ _ h
    exact ⟨.inl ⟨hne, hid⟩, hid ▸ h⟩
  · split_ifs at h with hne
    obtain ⟨-, hid, horder⟩ := (Cache.bind_orders_eq_some hindexed hindexed.clients).mp h
    exact ⟨.inr (.inl ⟨hne, hid⟩), horder⟩
  · split_ifs at h with hne
    obtain ⟨-, hid, horder⟩ := (Cache.bind_orders_eq_some hindexed hindexed.venues).mp h
    exact ⟨.inr (.inr ⟨hne, hid⟩), horder⟩

variable (m claims q) in
theorem run_applyListed (reports : List OrderStatusReport) :
    ∀ (filtered : List OrderStatusReport) (s : Querying), ∃ rs n x,
      (applyListed m claims q filtered reports).run s =
        (x, { node := n, taken := s.taken ++ rs }) ∧
      (∀ r ∈ rs, matchesOrderQuery r q = true) ∧ ∀ out, x = .ok out → out = filtered ++ rs := by
  induction reports with
  | nil =>
    intro filtered s
    refine ⟨[], s.node, .ok filtered, ?_, List.forall_mem_nil _, fun out h => ?_⟩
    · rw [applyListed, Prog.run_pure, List.append_nil]
    · rw [← Except.ok.inj h, List.append_nil]
  | cons report reports ih =>
    intro filtered s
    rw [applyListed]
    split_ifs with hmatch
    · obtain ⟨n, htake⟩ := run_take (claimExternalOrderReport claims report)
        (Node.onCache (applyOrderReport m (claimExternalOrderReport claims report))) s
      rw [Prog.run_bind, htake]
      match ((Node.onCache (applyOrderReport m (claimExternalOrderReport claims report))).run
        s.node).1 with
      | .error err =>
        exact ⟨_, n, .error err, rfl, by simpa using hmatch, fun _ h => (by cases h)⟩
      | .ok () =>
        obtain ⟨rs, n', x, hrun, hrs, hout⟩ :=
          ih (filtered ++ [claimExternalOrderReport claims report])
            ⟨n, s.taken ++ [claimExternalOrderReport claims report]⟩
        refine ⟨claimExternalOrderReport claims report :: rs, n', x, ?_, ?_, fun out h => ?_⟩
        · rw [List.append_cons s.taken (claimExternalOrderReport claims report) rs]
          exact hrun
        · exact List.forall_mem_cons.mpr ⟨hmatch, hrs⟩
        · rw [hout out h, List.append_assoc]
          rfl
    · exact ih filtered s

/-- Some reports more are taken, one of them is returned, and all of them have the ids
exactly if `good`. -/
def Takes (q : QueryOrder) (s : Querying) (out : Except Err OrderStatusReport × Querying)
    (good : Prop) : Prop :=
  ∃ rs n x, out = (x, { node := n, taken := s.taken ++ rs }) ∧ (∀ r, x = .ok r → r ∈ rs) ∧
    ((∀ r ∈ rs, Identifies q r) ↔ good)

theorem takes_nothing {good : Prop} (hgood : good) (s : Querying) (err : Err) :
    Takes q s (.error err, s) good :=
  ⟨[], s.node, .error err, by rw [List.append_nil], fun _ h => (by cases h),
    iff_of_true (List.forall_mem_nil _) hgood⟩

/-- The reports that the engine takes from a list have the ids. -/
theorem takes_queryOrderFromReports (hvalid : q.validate = .ok ()) {good : Prop} (hgood : good)
    (s : Querying) : Takes q s ((queryOrderFromReports m claims a q).run s) good := by
  have hscope := hvalid
  simp only [QueryOrder.validate, except_seq_eq_ok, reject_eq_ok, not_or] at hscope
  have hfirst : (Prog.lift (reject (q.accountID = "") ⟨.invalidAccount, "", []⟩) :
      Prog Querying Err Unit).run s = (.ok (), s) := by
    rw [reject, if_neg hscope.1.1]
    rfl
  have hsecond : (Prog.lift q.instrumentID.validate : Prog Querying Err Unit).run s =
      (.ok (), s) := by
    rw [hscope.2]
    rfl
  rw [queryOrderFromReports, Prog.run_bind_ok hfirst, Prog.run_bind_ok hsecond]
  cases hlisted : a.listed with
  | error err => exact takes_nothing hgood s err
  | ok reports =>
    have hthird : (Prog.lift (.ok reports : Except Err (List OrderStatusReport)) :
        Prog Querying Err _).run s = (.ok reports, s) := rfl
    rw [Prog.run_bind_ok hthird, Prog.run_bind]
    obtain ⟨rs, n, x, hrun, hrs, hout⟩ :=
      run_applyListed m claims q reports [] s
    have hids : ∀ r ∈ rs, Identifies q r := fun r hr => identifies_of_matches hvalid (hrs r hr)
    rw [hrun]
    cases x with
    | error err =>
      exact ⟨rs, n, .error err, rfl, fun _ h => (by cases h), iff_of_true hids hgood⟩
    | ok out =>
      obtain rfl : out = rs := hout out rfl
      cases out with
      | nil => exact ⟨[], n, _, rfl, fun _ h => (by cases h), iff_of_true hids hgood⟩
      | cons report rest =>
        refine ⟨report :: rest, n, .ok report, rfl, fun r hr => ?_, iff_of_true hids hgood⟩
        rw [← Except.ok.inj hr]
        exact List.mem_cons_self

/-- What the engine takes has the ids, if the answer to the question for the order has
one. -/
theorem takes_engineQueryOrder {s : Querying} (hvalid : q.validate = .ok ())
    (hnone : findQueriedOrder s.node.cache q = none) :
    Takes q s ((engineQueryOrder m claims a q).run s)
      (∀ r, a.connected = true → a.querier = some (.ok r) → Identifies q r) := by
  have hfirst : (Prog.lift q.validate : Prog Querying Err Unit).run s = (.ok (), s) := by
    rw [hvalid]
    rfl
  rw [engineQueryOrder, Prog.run_bind_ok hfirst, Prog.run_get_bind, hnone, ite_self]
  dsimp only
  split_ifs with hconnected
  · match a.querier with
    | none => exact takes_queryOrderFromReports hvalid (fun _ _ h => (by cases h)) s
    | some (.error err) =>
      dsimp only
      split_ifs
      · exact takes_queryOrderFromReports hvalid (fun _ _ h => (by cases h)) s
      · exact takes_nothing (fun _ _ h => (by cases h)) s err
    | some (.ok report) =>
      obtain ⟨n, htake⟩ := run_take report (Node.onCache (applyOrderReport m report)) s
      have hiff : (∀ r ∈ [report], Identifies q r) ↔
          ∀ r, a.connected = true →
            (some (.ok report) : Option (Except Err OrderStatusReport)) = some (.ok r) →
              Identifies q r := by
        simp [hconnected]
      dsimp only
      rw [Prog.run_bind, htake]
      match ((Node.onCache (applyOrderReport m report)).run s.node).1 with
      | .error err => exact ⟨[report], n, .error err, rfl, fun _ h => (by cases h), hiff⟩
      | .ok () =>
        refine ⟨[report], n, .ok report, rfl, fun r h => ?_, hiff⟩
        rw [← Except.ok.inj h]
        exact List.mem_cons_self
  · exact takes_nothing (fun _ h => absurd h hconnected) s _

variable (handle q) in
theorem run_takeMatching (s : Querying) (reports : List OrderStatusReport) : ∃ n x,
    (takeMatching handle q reports).run s = (x, { node := n, taken := s.taken ++
      (reports.find? fun r => matchesOrderQuery (fillQueriedReport r q) q).toList }) ∧
    ∀ report, x = .ok report → ∃ r, report = fillQueriedReport r q ∧
      reports.find? (fun r => matchesOrderQuery (fillQueriedReport r q) q) = some r := by
  induction reports with
  | nil =>
    refine ⟨s.node, .error (invalidOrder "order not found"), ?_, fun _ h => (by cases h)⟩
    rw [List.find?_nil, Option.toList_none, List.append_nil]
    rfl
  | cons report reports ih =>
    rw [takeMatching]
    split_ifs with hmatch
    · obtain ⟨n, htake⟩ := run_take report
        (Node.applyAndPublish handle { order := some (fillQueriedReport report q) }) s
      rw [List.find?_cons_of_pos (by simpa using hmatch), Prog.run_bind, htake]
      match ((Node.applyAndPublish handle { order := some (fillQueriedReport report q) }).run
        s.node).1 with
      | .error err => exact ⟨n, .error err, rfl, fun _ h => (by cases h)⟩
      | .ok () =>
        refine ⟨n, .ok (fillQueriedReport report q), rfl, fun r h => ⟨report, ?_, rfl⟩⟩
        exact (Except.ok.inj h).symm
    · rw [List.find?_cons_of_neg (by simpa using hmatch)]
      exact ih

end

/-- The client names the order that it answers about: the answer to the question for the
order has one of the ids, and so has, if the engine ends with "not supported", the first
report of the node's list that does not contradict the query. -/
structure Named (n : Node) : Prop where
  querier : ∀ r, a.connected = true → a.querier = some (.ok r) → Identifies q r
  listed : ∀ err s reports r, (engineQueryOrder m claims a q).run { node := n } = (.error err, s) →
    err.sentinel = .notSupported → a.connected = true → a.listedAgain = .ok reports →
    reports.find? (fun r => matchesOrderQuery (fillQueriedReport r q) q) = some r → Identifies q r

section

variable {m claims a handle q}

theorem sound_iff {c : Cache} {x : Except Err OrderStatusReport} {taken : List OrderStatusReport}
    (h : ∀ report, x = .ok report → ∃ r ∈ taken, report = fillQueriedReport r q) :
    Sound q c x taken ↔ ∀ r ∈ taken, Identifies q r := by
  refine ⟨And.left, fun hids => ⟨hids, fun report hx => ?_⟩⟩
  obtain ⟨r, hr, heq⟩ := h report hx
  exact ⟨r, hids r hr, heq, .inl hr⟩

/-- The rest of the query, when the engine has answered. -/
theorem sound_after_engine_ok {c : Cache} {s : Querying} {report : OrderStatusReport}
    (h : report ∈ s.taken) :
    let p : Prog Querying Err OrderStatusReport := do
      onNode (Node.applyAndPublish handle { order := some (fillQueriedReport report q) })
      pure (fillQueriedReport report q)
    Sound q c (p.run s).1 (p.run s).2.taken ↔ ∀ r ∈ s.taken, Identifies q r := by
  intro p
  let apply := Node.applyAndPublish handle { order := some (fillQueriedReport report q) }
  have hrun : ∃ n x, p.run s = (x, { s with node := n }) ∧
      ∀ r, x = .ok r → r = fillQueriedReport report q := by
    have hnode : (onNode apply).run s =
        ((apply.run s.node).1, { s with node := (apply.run s.node).2 }) := rfl
    change ∃ n x, (onNode apply >>= fun _ => pure (fillQueriedReport report q)).run s = _ ∧ _
    rw [Prog.run_bind, hnode]
    match (apply.run s.node).1 with
    | .error err => exact ⟨_, .error err, rfl, fun _ hr => (by cases hr)⟩
    | .ok () => exact ⟨_, .ok _, rfl, fun r hr => (Except.ok.inj hr).symm⟩
  obtain ⟨n, x, hrun, hx⟩ := hrun
  rw [hrun]
  exact sound_iff fun r hr => ⟨report, h, hx r hr⟩

/-- The rest of the query, when the engine has failed. -/
theorem sound_after_engine_error {c : Cache} {s : Querying} (err : Err) :
    let p : Prog Querying Err OrderStatusReport :=
      if err.sentinel = .notSupported then
        if a.connected then do
          let reports ← Prog.lift a.listedAgain
          takeMatching handle q reports
        else Prog.fail ⟨.notSupported, "no execution client for account", [q.accountID]⟩
      else Prog.fail err
    Sound q c (p.run s).1 (p.run s).2.taken ↔ (∀ r ∈ s.taken, Identifies q r) ∧
      ∀ reports r, err.sentinel = .notSupported → a.connected = true →
        a.listedAgain = .ok reports →
        reports.find? (fun r => matchesOrderQuery (fillQueriedReport r q) q) = some r →
          Identifies q r := by
  intro p
  have hfail : ∀ e : Err, Sound q c (.error e) s.taken ↔ ∀ r ∈ s.taken, Identifies q r :=
    fun e => sound_iff fun _ h => (by cases h)
  unfold p
  split_ifs with hsentinel hconnected
  · cases hlisted : a.listedAgain with
    | error e => exact (hfail e).trans (iff_self_and.mpr fun _ _ _ _ _ h => (by cases h))
    | ok reports =>
      obtain ⟨n, x, hrun, hx⟩ := run_takeMatching handle q s reports
      have hbind : (Prog.lift (.ok reports) >>= takeMatching handle q).run s =
          (takeMatching handle q reports).run s := rfl
      rw [hbind, hrun]
      rw [sound_iff fun report h => ?_]
      · simp only [List.mem_append, Option.mem_toList, or_imp, forall_and]
        refine and_congr_right fun _ => ⟨fun h rs r _ _ hrs hr => ?_, fun h r hr => ?_⟩
        · cases hrs
          exact h r hr
        · exact h reports r hsentinel hconnected rfl hr
      · obtain ⟨r, heq, hr⟩ := hx report h
        exact ⟨r, List.mem_append_right _ (Option.mem_toList.mpr hr), heq⟩
  · exact (hfail _).trans (iff_self_and.mpr fun _ _ _ _ h => absurd h hconnected)
  · exact (hfail _).trans (iff_self_and.mpr fun _ _ _ h => absurd h hsentinel)

end

/-- For every query and every answer of the client: what the node takes for the order has
one of the ids that were asked for exactly if the query is refused, or the cache knows
the order, or the client names it. -/
theorem queried_order_identified_iff (n : Node) (hcache : Cache.Reachable n.cache) :
    Sound q n.cache ((queryOrder m claims a handle q).run { node := n }).1
        ((queryOrder m claims a handle q).run { node := n }).2.taken ↔
      (q.validate = .ok () → findQueriedOrder n.cache q = none → Named m claims a q n) := by
  cases hvalid : q.validate with
  | error err =>
    have hrun : (queryOrder m claims a handle q).run { node := n } =
        (.error err, { node := n }) := by
      rw [queryOrder, hvalid]
      rfl
    rw [hrun]
    exact iff_of_true ⟨List.forall_mem_nil _, fun _ h => (by cases h)⟩ fun h => by cases h
  | ok u =>
    have hfirst : (Prog.lift q.validate : Prog Querying Err Unit).run { node := n } =
        (.ok (), { node := n }) := by
      rw [hvalid]
      rfl
    rw [queryOrder, Prog.run_bind_ok hfirst, Prog.run_get_bind]
    cases hfound : findQueriedOrder n.cache q with
    | some order =>
      obtain ⟨hids, horder⟩ := identifies_of_cached hcache hfound
      refine iff_of_true ⟨List.forall_mem_nil _, fun report h => ⟨order, hids, ?_, .inr horder⟩⟩
        fun _ h => by cases h
      exact (Except.ok.inj h).symm
    | none =>
      have htakes : Takes q { node := n } ((engineQueryOrder m claims a q).run { node := n })
          (∀ r, a.connected = true → a.querier = some (.ok r) → Identifies q r) :=
        takes_engineQueryOrder hvalid hfound
      obtain ⟨rs, n₁, x, hengine, hout, hids⟩ := htakes
      have hattempt : ((engineQueryOrder m claims a q).attempt).run { node := n } =
          (.ok x, { node := n₁, taken := rs }) := by
        rw [Prog.run_attempt, hengine]
        rfl
      rw [Prog.run_bind_ok hattempt]
      match x with
      | .ok report =>
        refine (sound_after_engine_ok (hout report rfl)).trans (hids.trans ?_)
        refine ⟨fun h _ _ => ⟨h, fun err s reports r hrun => ?_⟩, fun h => (h rfl rfl).querier⟩
        rw [hengine] at hrun
        cases hrun
      | .error err =>
        refine (sound_after_engine_error err).trans ?_
        refine ⟨fun h _ _ => ⟨hids.mp h.1, fun err' s reports r hrun => ?_⟩, fun h =>
          ⟨hids.mpr (h rfl rfl).querier, fun reports r => (h rfl rfl).listed err _ reports r
            hengine⟩⟩
        rw [hengine] at hrun
        cases hrun
        exact h.2 reports r

end Querying

/-! ### A question by client order id -/

def clientQuery : QueryOrder where
  accountID := "acct"
  instrumentID := ⟨"BTC-USDT-PERP", "BINANCE"⟩
  clientOrderID := "client-1"

/-- A report about the order "9". -/
def ninthOrder (clientOrderID : ClientOrderID) : OrderStatusReport where
  accountID := "acct"
  instrumentID := ⟨"BTC-USDT-PERP", "BINANCE"⟩
  orderID := "9"
  clientOrderID := clientOrderID
  status := .accepted
  side := .buy
  type := .limit
  quantity := 1
  leavesQuantity := 1
  price := 100

/-- The query, answered by the client with a report about the order "9". -/
def clientQueried (clientOrderID : ClientOrderID) : Except Err OrderStatusReport × Querying :=
  (@Querying.queryOrder exactDecimals {} (fun _ => "")
    { querier := some (.ok (ninthOrder clientOrderID)) } (fun _ => pure ()) clientQuery).run
    { node := {} }

/-- A client that names the order is believed. -/
theorem queried_order_identified_iff_named :
    Querying.Sound clientQuery ({} : Node).cache (clientQueried "client-1").1
      (clientQueried "client-1").2.taken := by
  let := exactDecimals
  refine (Querying.queried_order_identified_iff _ _ _ _ _ {} .new).mpr
    fun _ _ => ⟨fun r _ hr => ?_, fun err s reports r hrun => ?_⟩
  · cases hr
    decide
  · have hok : ((Querying.engineQueryOrder {} (fun _ => "")
        { querier := some (.ok (ninthOrder "client-1")) } clientQuery).run { node := {} }).1 =
        .ok (ninthOrder "client-1") := by decide +kernel
    rw [hrun] at hok
    cases hok

/-- So is one that does not: the order "9" is now cached under the client order id. -/
theorem nameless_report_taken :
    (clientQueried "").2.taken = [ninthOrder ""] ∧
    ¬ Querying.Identifies clientQuery (ninthOrder "") ∧
    (clientQueried "").1 = .ok (ninthOrder "client-1") ∧
    (clientQueried "").2.node.cache.orderByClientID "acct" "client-1" =
      some (ninthOrder "client-1") := by
  decide +kernel

end Exchanges.Platform
