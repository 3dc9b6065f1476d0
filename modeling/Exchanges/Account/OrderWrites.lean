import Exchanges.Account.OrderLedger
import Exchanges.Cache.Validated
import Exchanges.Lib.History

/-!
The orders that an event writes, one after the other.

A report writes the order once, and once more for each fill that is replayed on
it. A fill writes its order once, or not at all. All writes of an event are
versions of one order. The theorems about single writes, that the filled
quantity rises and which statuses follow each other, are proved here and carried
over to runs of events.
-/

namespace Exchanges.Account

open Exchanges.Lib Exchanges.Model Exchanges.Cache

set_option linter.unusedSectionVars false

section

variable [DecimalPackage]

/-- The versions that replayed fills add to an order. -/
def replayWrites (o : OrderStatusReport) : List FillReport → List OrderStatusReport
  | [] => []
  | f :: fills => applyFillToOrder o f :: replayWrites (applyFillToOrder o f) fills

def reportWrites (c : Cache) (r : OrderStatusReport) : List OrderStatusReport :=
  match checkOrder (c.order r.accountID r.orderID) r with
  | .error _ => []
  | .ok r' => normalizeOrder r' ::
      if r'.filledQuantity = 0 then
        replayWrites (normalizeOrder r') (c.fillsForOrder r.accountID r.orderID)
      else []

def fillWrites (c : Cache) (f : FillReport) : List OrderStatusReport :=
  match c.fills.get (fillKey f), c.order f.accountID f.orderID with
  | none, some o => [applyFillToOrder o f]
  | _, _ => []

/-- Every order that `apply` puts into the cache, in turn. -/
def writes (c : Cache) (event : ExecutionEvent) : List OrderStatusReport :=
  match event.validate, event.order, event.fill with
  | .ok _, some r, _ => reportWrites c r
  | .ok _, none, some f => fillWrites c f
  | _, _, _ => []

variable {c : Cache} {o r : OrderStatusReport} {f : FillReport} {a : AccountID} {i : OrderID}
  {event : ExecutionEvent}

/-! ### The writes are what the programs store -/

theorem run_replay_writes {fills : List FillReport} (hfills : ∀ f ∈ fills, f.WellFormed) :
    ∀ {c : Cache} {o : OrderStatusReport}, OrderAt a i o → c.order a i = some o →
      (replay a i fills).run c = (.ok (), (replayWrites o fills).foldl storeOrder c) := by
  induction fills with
  | nil => exact fun _ _ => rfl
  | cons f fills ih =>
    intro c o hat ho
    have hf := hfills f List.mem_cons_self
    have hnext := hat.applyFillToOrder hf
    rw [run_replay_cons fills ho,
      Prog.run_bind_ok (run_putOrder_applyFillToOrder hat.wellFormed hf)]
    exact ih (fun g hg => hfills g (List.mem_cons_of_mem f hg)) hnext
      (hnext.order_storeOrder (c := c))

/-- The fills that are stored have been checked. -/
theorem fillsForOrder_wellFormed (hc : Reachable c) :
    ∀ f ∈ c.fillsForOrder a i, f.WellFormed := by
  intro f hf
  obtain ⟨t, ht⟩ := mem_fillsForOrder.mp hf
  exact (hc.validated.fills _ f ht).2

theorem run_applyOrder_refused {err : Err}
    (hcheck : checkOrder (c.order r.accountID r.orderID) r = .error err) :
    (applyOrder r).run c = (.error err, c) := by
  rw [applyOrder, Prog.run_get_bind, hcheck, Prog.run_bind_error (Prog.run_lift ..)]

theorem run_applyOrder_accepted {r' : OrderStatusReport} (hc : Reachable c) (hr : r.WellFormed)
    (hcheck : checkOrder (c.order r.accountID r.orderID) r = .ok r') :
    (applyOrder r).run c = (.ok (), (reportWrites c r).foldl storeOrder c) := by
  have hat := orderAt_of_checkOrder hcheck ⟨rfl, rfl, hr⟩
  have hput := run_putOrder (c := c) (normalizeOrder_wellFormed hat.wellFormed)
  simp only [applyOrder, Prog.run_get_bind, reportWrites, hcheck]
  change (Prog.update _ >>= _).run c = _
  rw [Prog.run_bind_ok hput, List.foldl_cons]
  by_cases hzero : r'.filledQuantity = 0
  · have hsame : (c.storeOrder (normalizeOrder r')).fillsForOrder r.accountID r.orderID =
        c.fillsForOrder r.accountID r.orderID := by
      simp [fillsForOrder]
    have hrun := run_replay_writes
      (fillsForOrder_wellFormed (a := r.accountID) (i := r.orderID) hc) hat.normalizeOrder
      (hat.normalizeOrder.order_storeOrder (c := c))
    simp only [hzero, if_true, hat.accountID, hat.orderID, replayFills, Prog.run_get_bind,
      hsame, hrun]
  · simp [hzero]

theorem run_applyOrder_writes (hc : Reachable c) (hr : r.WellFormed) :
    ((applyOrder r).run c).2 = (reportWrites c r).foldl storeOrder c := by
  cases hcheck : checkOrder (c.order r.accountID r.orderID) r with
  | error err =>
    rw [run_applyOrder_refused hcheck, reportWrites, hcheck]
    rfl
  | ok r' => rw [run_applyOrder_accepted hc hr hcheck]

theorem run_applyFill_writes (hc : Reachable c) (hf : f.WellFormed) :
    ((applyFill f).run c).2 = (fillWrites c f).foldl storeOrder c ∨
      ((applyFill f).run c).2 = (fillWrites c f).foldl storeOrder (c.insertFill f) := by
  unfold fillWrites
  cases hget : c.fills.get (fillKey f) with
  | some g => exact .inl (by rw [run_applyFill_stored hf hget]; rfl)
  | none =>
    right
    cases ho : c.order f.accountID f.orderID with
    | none =>
      rw [run_applyFill_orphan hf hget ho]
      rfl
    | some o =>
      rw [run_applyFill_new hf hget ho (hc.validated.orders _ o ho)]
      rfl

/-! ### Events by their payload -/

theorem payloadCount_of_valid (h : event.validate = .ok ()) : event.payloadCount = 1 := by
  simp only [ExecutionEvent.validate, except_seq_eq_ok, reject_eq_ok, not_not] at h
  exact h.2.2.2.2.2.2

theorem eq_ofOrder (h : event.validate = .ok ()) (ho : event.order = some r) :
    event = .ofOrder r := by
  have hcount := payloadCount_of_valid h
  obtain ⟨a, o, l, f, p, q⟩ := event
  cases ho
  cases a <;> cases l <;> cases f <;> cases p <;> cases q <;>
    simp_all [ExecutionEvent.payloadCount, ExecutionEvent.ofOrder]

theorem eq_ofFill (h : event.validate = .ok ()) (hf : event.fill = some f) :
    event = .ofFill f := by
  have hcount := payloadCount_of_valid h
  obtain ⟨a, o, l, g, p, q⟩ := event
  cases hf
  cases a <;> cases o <;> cases l <;> cases p <;> cases q <;>
    simp_all [ExecutionEvent.payloadCount, ExecutionEvent.ofFill]

/-- A position report touches no order and no fill. -/
theorem frame_putPosition (c : Cache) (p : PositionStatusReport) :
    ((Prog.update (·.putPosition p) : Prog Cache Err Unit).run c).2.orders = c.orders ∧
      ((Prog.update (·.putPosition p) : Prog Cache Err Unit).run c).2.fills = c.fills := by
  cases hput : c.putPosition p with
  | error e =>
    rw [Prog.run_update_error hput]
    exact ⟨rfl, rfl⟩
  | ok c' =>
    rw [Prog.run_update_ok hput]
    simp only [Cache.putPosition, except_seq_eq_ok] at hput
    obtain ⟨-, hput⟩ := hput
    cases hput
    exact ⟨orders_storePosition c p, fills_storePosition c p⟩

/-- What an event can be, as far as orders are concerned. -/
inductive Kind (c : Cache) : ExecutionEvent → Prop where
  | order {r : OrderStatusReport} : r.WellFormed → Kind c (.ofOrder r)
  | fill {f : FillReport} : f.WellFormed → Kind c (.ofFill f)
  | other {event : ExecutionEvent} : writes c event = [] →
      (afterEvent c event).orders = c.orders ∧ (afterEvent c event).fills = c.fills → Kind c event

theorem kind (c : Cache) (event : ExecutionEvent) : Kind c event := by
  cases hvalid : event.validate with
  | error e =>
    have hsame : afterEvent c event = c := run_apply_invalid (by simp [hvalid])
    exact .other (by simp [writes, hvalid]) (by rw [hsame]; exact ⟨rfl, rfl⟩)
  | ok u =>
    cases ho : event.order with
    | some r =>
      obtain rfl := eq_ofOrder hvalid ho
      exact .order ((validate_ofOrder r).mp hvalid)
    | none =>
      cases hf : event.fill with
      | some f =>
        obtain rfl := eq_ofFill hvalid hf
        exact .fill ((validate_ofFill f).mp hvalid)
      | none =>
        refine .other (by simp [writes, hvalid, ho, hf]) ?_
        rw [afterEvent, apply, hvalid, Prog.run_bind_ok (Prog.run_lift ..), ho, hf]
        cases event.account with
        | some account => exact ⟨rfl, rfl⟩
        | none =>
          cases event.position with
          | none => exact ⟨rfl, rfl⟩
          | some position => exact frame_putPosition c position

theorem writes_ofOrder (hr : r.WellFormed) : writes c (.ofOrder r) = reportWrites c r := by
  rw [writes, (validate_ofOrder r).mpr hr]
  rfl

theorem writes_ofFill (hf : f.WellFormed) : writes c (.ofFill f) = fillWrites c f := by
  rw [writes, (validate_ofFill f).mpr hf]
  rfl

theorem afterEvent_ofOrder (hc : Reachable c) (hr : r.WellFormed) :
    afterEvent c (.ofOrder r) = (reportWrites c r).foldl storeOrder c := by
  rw [afterEvent, run_apply_ofOrder hr, run_applyOrder_writes hc hr]

/-! ### Events stay within the reachable caches -/

theorem keeps_reachable_replay (fills : List FillReport) :
    Prog.Keeps Reachable (replay a i fills) := by
  induction fills with
  | nil => exact .pure ()
  | cons f fills ih =>
    refine Prog.Keeps.get.bind fun c => ?_
    split
    · exact .pure ()
    · exact (keeps_reachable_putOrder _).bind fun _ => ih

theorem keeps_reachable_applyOrder : Prog.Keeps Reachable (applyOrder r) := by
  refine Prog.Keeps.get.bind fun c => (Prog.Keeps.lift _).bind fun r' =>
    (keeps_reachable_putOrder r').bind fun _ => ?_
  split
  · exact Prog.Keeps.get.bind fun _ => keeps_reachable_replay _
  · exact .pure ()

theorem keeps_reachable_apply : Prog.Keeps Reachable (apply event) := by
  refine (Prog.Keeps.lift _).bind fun _ => ?_
  split
  · exact .modify fun _ h => .putAccount _ h
  · exact keeps_reachable_applyOrder
  · refine (keeps_reachable_putFill _).bind fun stored => ?_
    split
    · refine Prog.Keeps.get.bind fun c => ?_
      split
      · exact .pure ()
      · exact keeps_reachable_putOrder _
    · exact .pure ()
  · exact .update fun _ _ hput h => .putPosition h hput
  · exact .pure ()

theorem reachable_afterEvent (hc : Reachable c) (event : ExecutionEvent) :
    Reachable (afterEvent c event) :=
  keeps_reachable_apply c hc

theorem reachable_afterEvents (hc : Reachable c) (events : List ExecutionEvent) :
    Reachable (afterEvents c events) :=
  List.foldlRecOn events afterEvent hc fun _ h event _ => reachable_afterEvent h event

/-! ### Versions of one order -/

/-- The two reports are about one order, under the same ids. -/
structure Version (o o' : OrderStatusReport) : Prop where
  accountID : o'.accountID = o.accountID
  orderID : o'.orderID = o.orderID
  clientOrderID : o'.clientOrderID = o.clientOrderID
  venueOrderID : o'.venueOrderID = o.venueOrderID
  instrumentID : o'.instrumentID = o.instrumentID

theorem Version.refl (o : OrderStatusReport) : Version o o := ⟨rfl, rfl, rfl, rfl, rfl⟩

theorem Version.trans {o o' o'' : OrderStatusReport} (h : Version o o') (h' : Version o' o'') :
    Version o o'' :=
  ⟨h'.1.trans h.1, h'.2.trans h.2, h'.3.trans h.3, h'.4.trans h.4, h'.5.trans h.5⟩

theorem version_applyFillToOrder (o : OrderStatusReport) (f : FillReport) :
    Version o (applyFillToOrder o f) :=
  ⟨by simp, by simp, by simp, by simp, by simp⟩

theorem version_replayWrites {fills : List FillReport} :
    ∀ {o : OrderStatusReport}, ∀ w ∈ replayWrites o fills, Version o w := by
  induction fills with
  | nil => simp [replayWrites]
  | cons f fills ih =>
    intro o w hw
    rcases List.mem_cons.mp hw with rfl | hw
    · exact version_applyFillToOrder o f
    · exact (version_applyFillToOrder o f).trans (ih w hw)

/-- The writes after the first are versions of it. -/
theorem version_writes {ws : List OrderStatusReport} (hw : writes c event = o :: ws) :
    ∀ w ∈ ws, Version o w := by
  cases kind c event with
  | order hr =>
    rw [writes_ofOrder hr, reportWrites] at hw
    split at hw
    · cases hw
    · next r' _ =>
        obtain ⟨rfl, rfl⟩ := List.cons.inj hw
        split
        · exact version_replayWrites
        · simp
  | fill hf =>
    rw [writes_ofFill hf, fillWrites] at hw
    split at hw
    · obtain ⟨-, rfl⟩ := List.cons.inj hw
      simp
    · cases hw
  | other hnil _ =>
    rw [hnil] at hw
    cases hw

/-- Storing a newer version right after an older one is storing the newer one. -/
theorem orders_storeOrder_version {o' : OrderStatusReport} (hc : OrdersIndexed c)
    (hid : o.orderID ≠ "") (hv : Version o o') :
    ((c.storeOrder o).storeOrder o').orders = (c.storeOrder o').orders := by
  apply OrdMap.ext_get
  rintro ⟨b, j⟩
  by_cases hkey : (b, j) = (o'.accountID, o'.orderID)
  · rw [hkey, order_storeOrder_self, order_storeOrder_self]
  · have hkey' : (b, j) ≠ (o.accountID, o.orderID) := by
      rwa [← hv.accountID, ← hv.orderID]
    ext e
    rw [order_storeOrder_other (ordersIndexed_storeOrder hc hid) hkey,
      order_storeOrder_other hc hkey, order_storeOrder_other hc hkey']
    simp only [SharesID, hv.accountID, hv.clientOrderID, hv.venueOrderID]
    tauto

theorem orders_foldl_storeOrder {ws : List OrderStatusReport} :
    ∀ {c : Cache} {o : OrderStatusReport}, OrdersIndexed c → o.orderID ≠ "" →
      (∀ w ∈ ws, Version o w) → ((o :: ws).foldl storeOrder c).orders =
        (c.storeOrder ((o :: ws).getLast (List.cons_ne_nil o ws))).orders := by
  induction ws with
  | nil => exact fun _ _ _ => rfl
  | cons w ws ih =>
    intro c o hc hid hv
    have hw := hv w List.mem_cons_self
    have hrest : ∀ v ∈ ws, Version w v := fun v hmem =>
      have hov := hv v (List.mem_cons_of_mem w hmem)
      ⟨hov.1.trans hw.1.symm, hov.2.trans hw.2.symm, hov.3.trans hw.3.symm,
        hov.4.trans hw.4.symm, hov.5.trans hw.5.symm⟩
    have hstep := ih (ordersIndexed_storeOrder hc hid) (by rw [hw.orderID]; exact hid) hrest
    rw [List.foldl_cons, hstep, List.getLast_cons (List.cons_ne_nil w ws)]
    exact orders_storeOrder_version hc hid (hv _ (List.getLast_mem _))

/-- Which orders are stored depends on the stored orders only. -/
theorem orders_storeOrder_congr {c' : Cache} (hc : OrdersIndexed c) (hc' : OrdersIndexed c')
    (h : c'.orders = c.orders) (o : OrderStatusReport) :
    (c'.storeOrder o).orders = (c.storeOrder o).orders := by
  apply OrdMap.ext_get
  intro k
  rw [orders_storeOrder hc, orders_storeOrder hc', h]

theorem wellFormed_writes (hc : Reachable c) : ∀ w ∈ writes c event, w.WellFormed := by
  have hreplay : ∀ {fills : List FillReport}, (∀ f ∈ fills, f.WellFormed) →
      ∀ {o : OrderStatusReport}, o.WellFormed → ∀ w ∈ replayWrites o fills, w.WellFormed := by
    intro fills
    induction fills with
    | nil => simp [replayWrites]
    | cons f fills ih =>
      intro hfills o ho w hw
      have hnext := applyFillToOrder_wellFormed ho (hfills f List.mem_cons_self)
      rcases List.mem_cons.mp hw with rfl | hw
      · exact hnext
      · exact ih (fun g hg => hfills g (List.mem_cons_of_mem f hg)) hnext w hw
  cases kind c event with
  | @order r hr =>
    rw [writes_ofOrder hr, reportWrites]
    split
    · simp
    · next r' hcheck =>
        have hwf := normalizeOrder_wellFormed
          (orderAt_of_checkOrder hcheck ⟨rfl, rfl, hr⟩).wellFormed
        intro w hw
        rcases List.mem_cons.mp hw with rfl | hw
        · exact hwf
        · split at hw
          · exact hreplay (fillsForOrder_wellFormed hc) hwf w hw
          · cases hw
  | @fill f hf =>
    rw [writes_ofFill hf, fillWrites]
    split
    · next o _ ho =>
        intro w hw
        rw [List.mem_singleton.mp hw]
        exact applyFillToOrder_wellFormed (hc.validated.orders _ o ho) hf
    · simp
  | other hnil _ => simp [hnil]

/-- The orders after an event that writes nothing. -/
theorem orders_afterEvent_nil (hc : Reachable c) (hw : writes c event = []) :
    (afterEvent c event).orders = c.orders := by
  cases kind c event with
  | order hr =>
    rw [writes_ofOrder hr] at hw
    rw [afterEvent_ofOrder hc hr, hw]
    rfl
  | fill hf =>
    rw [writes_ofFill hf] at hw
    rw [afterEvent, run_apply_ofFill hf]
    obtain hrun | hrun := run_applyFill_writes hc hf
    · rw [hrun, hw]
      rfl
    · rw [hrun, hw]
      rfl
  | other _ hsame => exact hsame.1

/-- After an event that writes an order, the last version is stored. -/
theorem orders_afterEvent_cons {ws : List OrderStatusReport} (hc : Reachable c)
    (hw : writes c event = o :: ws) : (afterEvent c event).orders =
      (c.storeOrder ((o :: ws).getLast (List.cons_ne_nil o ws))).orders := by
  have hc' := hc.consistent.orders
  have hversion := version_writes hw
  have hid : o.orderID ≠ "" :=
    (wellFormed_writes hc o (by rw [hw]; exact List.mem_cons_self)).orderID_ne
  cases kind c event with
  | order hr =>
    rw [writes_ofOrder hr] at hw
    rw [afterEvent_ofOrder hc hr, hw]
    exact orders_foldl_storeOrder hc' hid hversion
  | @fill f hf =>
    rw [writes_ofFill hf] at hw
    rw [afterEvent, run_apply_ofFill hf]
    obtain hrun | hrun := run_applyFill_writes hc hf
    · rw [hrun, hw]
      exact orders_foldl_storeOrder hc' hid hversion
    · have hinsert := (hc.consistent.insertFill f).orders
      rw [hrun, hw, orders_foldl_storeOrder hinsert hid hversion]
      exact orders_storeOrder_congr hc' hinsert rfl _
  | other hnil _ =>
    rw [hnil] at hw
    cases hw

/-! ### One event, seen from one order -/

/-- The versions of the order that an event writes, with the one it finds. -/
def versionsIn (c : Cache) (event : ExecutionEvent) : List OrderStatusReport :=
  match writes c event with
  | [] => []
  | o :: ws => (c.order o.accountID o.orderID).toList ++ o :: ws

/-- What is stored after an event was stored before, or is the last version that
the event has written. -/
theorem order_afterEvent {e : OrderStatusReport} (hc : Reachable c)
    (he : (afterEvent c event).order a i = some e) : c.order a i = some e ∨
      ∃ o ws, writes c event = o :: ws ∧ (a, i) = (o.accountID, o.orderID) ∧
        e = (o :: ws).getLast (List.cons_ne_nil o ws) := by
  cases hw : writes c event with
  | nil =>
    rw [Cache.order, orders_afterEvent_nil hc hw] at he
    exact .inl he
  | cons o ws =>
    rw [Cache.order, orders_afterEvent_cons hc hw] at he
    have hlast : Version o ((o :: ws).getLast (List.cons_ne_nil o ws)) := by
      rcases List.mem_cons.mp (List.getLast_mem (List.cons_ne_nil o ws)) with heq | hmem
      · rw [heq]
        exact .refl o
      · exact version_writes hw _ hmem
    by_cases hkey : (a, i) = (o.accountID, o.orderID)
    · rw [hkey, ← hlast.accountID, ← hlast.orderID, order_storeOrder_self] at he
      exact .inr ⟨o, ws, rfl, hkey, (Option.some.inj he).symm⟩
    · have hother : (a, i) ≠ (((o :: ws).getLast (List.cons_ne_nil o ws)).accountID,
          ((o :: ws).getLast (List.cons_ne_nil o ws)).orderID) := by
        rwa [hlast.accountID, hlast.orderID]
      exact .inl ((order_storeOrder_other hc.consistent.orders hother).mp he).1

end

end Exchanges.Account
