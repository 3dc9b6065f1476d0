import Exchanges.Account.Outcome

/-!
The orders found under one client order id, over a run.

A report is checked against the order that is stored under its order id. Under
its client order id it replaces whichever order was found there, which may be
another one: a local placeholder gives way to the order under the venue's id,
and nothing compares the two. So whether what the client finds only moves
forward depends on what the reports say, and on the fills that closed orders
still receive. The theorem states the exact condition, event by event.
-/

namespace Exchanges.Account

open Exchanges.Lib Exchanges.Model Exchanges.Cache

set_option linter.unusedSectionVars false

section

variable [DecimalPackage] {c : Cache} {o r x y : OrderStatusReport} {f : FillReport}
  {a : AccountID} {k : ClientOrderID} {event : ExecutionEvent}
  {last : Option OrderStatusReport}

theorem orderByClientID_eq_some (hc : OrdersIndexed c) : c.orderByClientID a k = some o ↔
    k ≠ "" ∧ o.clientOrderID = k ∧ c.order a o.orderID = some o :=
  bind_orders_eq_some hc hc.clients

/-- What is found under a client order id depends on the stored orders only. -/
theorem orderByClientID_congr {c' : Cache} (hc : OrdersIndexed c) (hc' : OrdersIndexed c')
    (h : c'.orders = c.orders) : c'.orderByClientID a k = c.orderByClientID a k := by
  ext o
  rw [orderByClientID_eq_some hc, orderByClientID_eq_some hc', Cache.order, h, Cache.order]

/-- After an order was stored, it is found under its client order id, and other
client order ids lead where they led, or nowhere. -/
theorem orderByClientID_storeOrder (hc : OrdersIndexed c) (hid : o.orderID ≠ "")
    (hfound : (c.storeOrder o).orderByClientID a k = some y) :
    (o.accountID = a ∧ o.clientOrderID = k ∧ y = o) ∨
      (¬ (o.accountID = a ∧ o.clientOrderID = k) ∧ c.orderByClientID a k = some y) := by
  obtain ⟨hk, hclient, hy⟩ :=
    (orderByClientID_eq_some (ordersIndexed_storeOrder hc hid)).mp hfound
  by_cases hkey : (a, y.orderID) = (o.accountID, o.orderID)
  · rw [Cache.order, hkey, order_storeOrder_self] at hy
    cases hy
    exact .inl ⟨(Prod.mk.inj hkey).1.symm, hclient, rfl⟩
  · obtain ⟨hbefore, hnot⟩ := (order_storeOrder_other hc hkey).mp hy
    refine .inr ⟨?_, (orderByClientID_eq_some hc).mpr ⟨hk, hclient, hbefore⟩⟩
    rintro ⟨ha, hsame⟩
    exact hnot ⟨ha.symm, .inl ⟨hsame ▸ hk, hclient.trans hsame.symm⟩⟩

/-- The second order moves on from the first: it has filled as much, and it is
closed if the first was. -/
def MovesOn (x y : OrderStatusReport) : Prop :=
  x.filledQuantity ≤ y.filledQuantity ∧
    (x.status.isTerminal = true → y.status.isTerminal = true)

theorem MovesOn.refl (x : OrderStatusReport) : MovesOn x x := ⟨le_refl _, id⟩

/-- One event, seen from what was found last: only the order that the event
writes can be a step back. -/
theorem movesOn_afterEvent_iff (hc : Reachable c) (hk : k ≠ "")
    (hlast : ∀ e, c.orderByClientID a k = some e → last = some e) :
    (∀ x y, last = some x → (afterEvent c event).orderByClientID a k = some y → MovesOn x y) ↔
      ∀ o, written c event = some o → o.accountID = a → o.clientOrderID = k →
        ∀ x, last = some x → MovesOn x o := by
  have hindexed := hc.consistent.orders
  have hafter := (reachable_afterEvent hc event).consistent.orders
  have horders := orders_afterEvent hc event
  have hsame : ∀ x y, last = some x → c.orderByClientID a k = some y → MovesOn x y := by
    intro x y hx hy
    rw [Option.some.inj (hx.symm.trans (hlast y hy))]
    exact .refl y
  cases hw : written c event with
  | none =>
    rw [hw] at horders
    refine iff_of_true (fun x y hx hy => ?_) fun o ho => by cases ho
    rw [orderByClientID_congr hindexed hafter horders] at hy
    exact hsame x y hx hy
  | some o =>
    rw [hw] at horders
    have hid : o.orderID ≠ "" :=
      (wellFormed_writes hc o (List.mem_of_getLast? hw)).orderID_ne
    rw [orderByClientID_congr (ordersIndexed_storeOrder hindexed hid) hafter horders]
    constructor
    · rintro h _ ⟨⟩ ha hclient x hx
      refine h x o hx ?_
      rw [orderByClientID_eq_some (ordersIndexed_storeOrder hindexed hid)]
      exact ⟨hk, hclient, ha ▸ order_storeOrder_self c o⟩
    · intro h x y hx hy
      obtain ⟨ha, hclient, rfl⟩ | ⟨-, hbefore⟩ := orderByClientID_storeOrder hindexed hid hy
      · exact h y rfl ha hclient x hx
      · exact hsame x y hx hbefore

/-- When an event does not set back what is found under a client order id. An
accepted report under this client order id has, with the stored fills of its
order, filled what was found last, and leaves closed what was closed. A fill of
a closed order that is found must complete it. -/
structure MovesClientOn (a : AccountID) (k : ClientOrderID) (last : Option OrderStatusReport)
    (c : Cache) (event : ExecutionEvent) : Prop where
  report : ∀ r s x, event = .ofOrder r → r.WellFormed → r.accountID = a → r.clientOrderID = k →
    AcceptedAs (c.order a r.orderID) r s → last = some x →
    x.filledQuantity ≤ filledWith r s (c.fillsForOrder a r.orderID) ∧
      (x.status.isTerminal = true → ClosedWith r s (c.fillsForOrder a r.orderID))
  fill : ∀ f o, event = .ofFill f → f.WellFormed → c.fills.get (fillKey f) = none →
    c.orderByClientID a k = some o → f.accountID = a → f.orderID = o.orderID →
    o.status.isTerminal = true →
    0 < o.quantity ∧ o.quantity ≤ o.filledQuantity + f.quantity

theorem movesOn_outcome {s : OrderStatus} (hc : Reachable c) (hr : r.WellFormed)
    (hs : s ≠ .unset) : MovesOn x (outcome c r s) ↔
      x.filledQuantity ≤ filledWith r s (c.fillsForOrder r.accountID r.orderID) ∧
        (x.status.isTerminal = true →
          ClosedWith r s (c.fillsForOrder r.accountID r.orderID)) := by
  rw [MovesOn, filledQuantity_outcome hc hr hs, isTerminal_outcome hc hr hs]

theorem movesOn_applyFillToOrder (ho : o.WellFormed) (hf : f.WellFormed) :
    MovesOn o (applyFillToOrder o f) ↔ (o.status.isTerminal = true →
      0 < o.quantity ∧ o.quantity ≤ o.filledQuantity + f.quantity) := by
  rw [MovesOn, isTerminal_applyFillToOrder ho hf]
  exact and_iff_right (filledQuantity_le_applyFillToOrder ho hf)

theorem movesOn_written_report (hc : Reachable c) (hr : r.WellFormed) :
    (∀ o, written c (.ofOrder r) = some o → o.accountID = a → o.clientOrderID = k →
        ∀ x, last = some x → MovesOn x o) ↔
      ∀ s x, r.accountID = a → r.clientOrderID = k → AcceptedAs (c.order a r.orderID) r s →
        last = some x → x.filledQuantity ≤ filledWith r s (c.fillsForOrder a r.orderID) ∧
          (x.status.isTerminal = true → ClosedWith r s (c.fillsForOrder a r.orderID)) := by
  constructor
  · rintro h s x rfl rfl hs hx
    have hids := version_outcome c r s
    have hwritten := (written_ofOrder hr).mpr ⟨s, hs, rfl⟩
    exact (movesOn_outcome hc hr (hs.ne_unset hr)).mp (h _ hwritten hids.accountID hids.clientOrderID x hx)
  · intro h o ho ha hclient x hx
    obtain ⟨s, hs, rfl⟩ := (written_ofOrder hr).mp ho
    have hids := version_outcome c r s
    obtain rfl := hids.accountID.symm.trans ha
    exact (movesOn_outcome hc hr (hs.ne_unset hr)).mpr
      (h s x rfl (hids.clientOrderID.symm.trans hclient) hs hx)

theorem movesOn_written_fill (hc : Reachable c) (hf : f.WellFormed) (hk : k ≠ "")
    (hlast : ∀ e, c.orderByClientID a k = some e → last = some e) :
    (∀ o, written c (.ofFill f) = some o → o.accountID = a → o.clientOrderID = k →
        ∀ x, last = some x → MovesOn x o) ↔
      ∀ o, c.fills.get (fillKey f) = none → c.orderByClientID a k = some o → f.accountID = a →
        f.orderID = o.orderID → o.status.isTerminal = true →
        0 < o.quantity ∧ o.quantity ≤ o.filledQuantity + f.quantity := by
  have hindexed := hc.consistent.orders
  constructor
  · rintro h o hget ho rfl hid
    obtain ⟨-, hclient, hstored⟩ := (orderByClientID_eq_some hindexed).mp ho
    have hwf := hc.validated.orders _ o hstored
    have hacc := (hindexed.keyed _ _ o hstored).1
    rw [← hid] at hstored
    have hwritten := (written_ofFill hf).mpr ⟨hget, o, hstored, rfl⟩
    exact (movesOn_applyFillToOrder hwf hf).mp
      (h _ hwritten (by simpa using hacc) (by simpa using hclient) o (hlast o ho))
  · intro h o ho ha hclient x hx
    obtain ⟨hget, e, he, rfl⟩ := (written_ofFill hf).mp ho
    rw [applyFillToOrder_accountID] at ha
    rw [applyFillToOrder_clientOrderID] at hclient
    obtain ⟨hacc, hid, -⟩ := hindexed.keyed _ _ e he
    obtain rfl := hacc.symm.trans ha
    rw [← hid] at he
    -- the order that takes the fill is the one that is found
    have hfound := (orderByClientID_eq_some hindexed).mpr ⟨hk, hclient, he⟩
    obtain rfl : e = x := Option.some.inj ((hlast e hfound).symm.trans hx)
    exact (movesOn_applyFillToOrder (hc.validated.orders _ e he) hf).mpr
      (h e hget hfound rfl hid.symm)

theorem movesClientOn_iff (hc : Reachable c) (hk : k ≠ "")
    (hlast : ∀ e, c.orderByClientID a k = some e → last = some e) :
    (∀ x y, last = some x → (afterEvent c event).orderByClientID a k = some y → MovesOn x y) ↔
      MovesClientOn a k last c event := by
  rw [movesOn_afterEvent_iff hc hk hlast]
  cases kind c event with
  | @order r hr =>
    rw [movesOn_written_report hc hr]
    constructor
    · intro h
      refine ⟨?_, fun f o heq => by cases heq⟩
      rintro _ s x ⟨⟩ -
      exact h s x
    · exact fun h s x => h.report r s x rfl hr
  | @fill f hf =>
    rw [movesOn_written_fill hc hf hk hlast]
    constructor
    · intro h
      refine ⟨fun r s x heq => (by cases heq), ?_⟩
      rintro _ o ⟨⟩ -
      exact h o
    · exact fun h o => h.fill f o rfl hf
  | other hnil _ =>
    have hwritten : ∀ o, written c event ≠ some o := by simp [written, hnil]
    refine iff_of_true (fun o ho => absurd ho (hwritten o)) ⟨?_, ?_⟩
    · rintro r s x rfl hr rfl - hs
      exact absurd ((written_ofOrder hr).mpr ⟨s, hs, rfl⟩) (hwritten _)
    · rintro f o rfl hf hget ho rfl hid
      have hstored := ((orderByClientID_eq_some hc.consistent.orders).mp ho).2.2
      rw [← hid] at hstored
      exact absurd ((written_ofFill hf).mpr ⟨hget, o, hstored, rfl⟩) (hwritten _)

/-- What is found under a client order id never has filled less than before and
is never open after it was closed, exactly when every event moves it on. -/
theorem client_moves_on_iff (hc : Reachable c) (events : List ExecutionEvent) :
    (observed afterEvent (·.orderByClientID a k) c events).Pairwise (fun x y =>
        x.filledQuantity ≤ y.filledQuantity ∧
          (x.status.isTerminal = true → y.status.isOpen = false)) ↔
      ∀ pre event, pre ++ [event] <+: events →
        MovesClientOn a k (lastObserved afterEvent (·.orderByClientID a k) c pre)
          (afterEvents c pre) event := by
  have htrans : IsTrans OrderStatusReport MovesOn :=
    ⟨fun _ _ _ h h' => ⟨h.1.trans h'.1, fun ht => h'.2 (h.2 ht)⟩⟩
  have hfound : ∀ events, ∀ e ∈ observed afterEvent (·.orderByClientID a k) c events,
      k ≠ "" ∧ e.status ≠ .unset := by
    intro events e he
    obtain ⟨pre, -, he⟩ := exists_of_mem_observed he
    have hpre := reachable_afterEvents hc pre
    obtain ⟨hk, -, hstored⟩ := (orderByClientID_eq_some hpre.consistent.orders).mp he
    exact ⟨hk, (hpre.validated.orders _ e hstored).status_ne⟩
  have hiff : (observed afterEvent (·.orderByClientID a k) c events).Pairwise (fun x y =>
        x.filledQuantity ≤ y.filledQuantity ∧
          (x.status.isTerminal = true → y.status.isOpen = false)) ↔
      (observed afterEvent (·.orderByClientID a k) c events).Pairwise MovesOn :=
    List.Pairwise.iff_of_mem fun _ hy => and_congr_right fun _ =>
      imp_congr_right fun _ => OrderStatus.isOpen_eq_false (hfound events _ hy).2
  rw [hiff, pairwise_observed_iff]
  refine forall_congr' fun pre => forall_congr' fun event => forall_congr' fun _ => ?_
  by_cases hk : k = ""
  · -- nothing is ever found under the empty id
    have hnone : ∀ x, lastObserved afterEvent (·.orderByClientID a k) c pre ≠ some x :=
      fun x hx => (hfound pre x (List.mem_of_getLast? hx)).1 hk
    refine iff_of_true (fun x y hx => absurd hx (hnone x)) ⟨?_, ?_⟩
    · intro r s x _ _ _ _ _ hx
      exact absurd hx (hnone x)
    · intro f o _ _ _ ho
      exact absurd (lastObserved_of_obs ho) (hnone o)
  · exact movesClientOn_iff (reachable_afterEvents hc pre) hk fun e he => lastObserved_of_obs he

end

/-- The order as it is stored before the venue has given it an id. -/
def placeholder : OrderStatusReport :=
  { sampleReport with orderID := "local-1", clientOrderID := "client-1", status := .submitted }

/-- The same order under the venue's id. -/
def venueReport : OrderStatusReport :=
  { sampleReport with clientOrderID := "client-1", venueOrderID := "order-1" }

/-- The placeholder, the venue's report and a fill. -/
def steadyEvents : List ExecutionEvent :=
  [.ofOrder placeholder, .ofOrder venueReport, .ofFill sampleFill1]

theorem client_moves_on_iff_sample :
    (observed (@afterEvent exactDecimals) (·.orderByClientID "acct" "client-1") new
        steadyEvents).map (fun o => (o.orderID, o.filledQuantity)) =
          [("local-1", 0), ("order-1", 0), ("order-1", 5)] ∧
      ∀ pre event, pre ++ [event] <+: steadyEvents →
        MovesClientOn "acct" "client-1"
          (lastObserved (@afterEvent exactDecimals) (·.orderByClientID "acct" "client-1") new pre)
          (@afterEvents exactDecimals new pre) event := by
  let _ : DecimalPackage := exactDecimals
  exact ⟨by decide +kernel, (client_moves_on_iff .new _).mp (by decide +kernel)⟩

/-- A placeholder that was filled by 5 and canceled gives way to the venue's
report, which knows of neither. -/
def forgetfulEvents : List ExecutionEvent :=
  [.ofOrder { placeholder with status := .canceled, filledQuantity := 5 }, .ofOrder venueReport]

theorem venue_id_resets_order :
    ((Prog.forEach (@apply exactDecimals) forgetfulEvents).run new).1 = .ok () ∧
      (observed (@afterEvent exactDecimals) (·.orderByClientID "acct" "client-1") new
        forgetfulEvents).map (fun o => (o.filledQuantity, o.status)) =
          [(5, .canceled), (0, .accepted)] ∧
      ¬ (observed (@afterEvent exactDecimals) (·.orderByClientID "acct" "client-1") new
        forgetfulEvents).Pairwise (fun x y => x.filledQuantity ≤ y.filledQuantity ∧
          (x.status.isTerminal = true → y.status.isOpen = false)) :=
  ⟨by decide +kernel, by decide +kernel, by decide +kernel⟩

end Exchanges.Account
